/-!
UTF-8, one byte at a time. `pieces` cuts bytes into characters and maximal ill-formed parts, so a
strict and a lossy reading are two views of one list.
-/

namespace ModelBindings.Text.Utf8

abbrev Bytes := List UInt8

/-- Where the decoder stands: between characters, or inside one whose next byte lies between `low`
and `high` and after which `more` bytes are owed. -/
inductive Stage where
  | start
  | inside (more low high code : Nat)
  deriving DecidableEq, Repr

inductive Lead where
  | whole (c : Char)
  | opens (s : Stage)
  | bad

def lead (b : Nat) : Lead :=
  if b < 0x80 then .whole (Char.ofNat b)
  else if b < 0xC2 then .bad
  else if b < 0xE0 then .opens (.inside 0 0x80 0xBF (b - 0xC0))
  else if b < 0xF0 then
    .opens
      (.inside 1 (if b = 0xE0 then 0xA0 else 0x80) (if b = 0xED then 0x9F else 0xBF) (b - 0xE0))
  else if b < 0xF5 then
    .opens
      (.inside 2 (if b = 0xF0 then 0x90 else 0x80) (if b = 0xF4 then 0x8F else 0xBF) (b - 0xF0))
  else .bad

def begin (b : Nat) : List (Option Char) × Stage :=
  match lead b with
  | .whole c => ([some c], .start)
  | .opens s => ([], s)
  | .bad => ([none], .start)

def step (s : Stage) (b : Nat) : List (Option Char) × Stage :=
  match s with
  | .start => begin b
  | .inside more low high code =>
      if low ≤ b ∧ b ≤ high then
        let code := code * 64 + b % 64
        match more with
        | 0 => ([some (Char.ofNat code)], .start)
        | more + 1 => ([], .inside more 0x80 0xBF code)
      else
        let (ps, s) := begin b
        (none :: ps, s)

def piecesFrom (s : Stage) : Bytes → List (Option Char)
  | [] =>
      match s with
      | .start => []
      | .inside .. => [none]
  | b :: bs =>
      let (ps, s) := step s b.toNat
      ps ++ piecesFrom s bs

/-- The characters of `bs`, with `none` for each maximal ill-formed part. -/
def pieces (bs : Bytes) : List (Option Char) :=
  piecesFrom .start bs

def decode? (bs : Bytes) : Option String :=
  ((pieces bs).mapM id).map String.ofList

def decodeLossy (bs : Bytes) : String :=
  String.ofList ((pieces bs).map (·.getD '\uFFFD'))

def tail (n : Nat) : UInt8 := UInt8.ofNat (0x80 + n % 64)

def encodeChar (c : Char) : Bytes :=
  let n := c.toNat
  if n < 0x80 then [UInt8.ofNat n]
  else if n < 0x800 then [UInt8.ofNat (0xC0 + n / 64), tail n]
  else if n < 0x10000 then [UInt8.ofNat (0xE0 + n / 4096), tail (n / 64), tail n]
  else [UInt8.ofNat (0xF0 + n / 262144), tail (n / 4096), tail (n / 64), tail n]

def encode (s : String) : Bytes :=
  s.toList.flatMap encodeChar

def byteSize (cs : List Char) : Nat :=
  cs.foldr (fun c n => c.utf8Size + n) 0

@[simp] theorem byteSize_nil : byteSize [] = 0 := rfl

@[simp] theorem byteSize_cons (c : Char) (cs : List Char) :
    byteSize (c :: cs) = c.utf8Size + byteSize cs := rfl

theorem byteSize_replicate (n : Nat) (c : Char) :
    byteSize (List.replicate n c) = n * c.utf8Size := by
  induction n with
  | zero => simp
  | succ n ih =>
    rw [List.replicate_succ, byteSize_cons, ih, Nat.succ_mul, Nat.add_comm]

theorem piecesFrom_cons (s : Stage) (b : UInt8) (bs : Bytes) :
    piecesFrom s (b :: bs) = (step s b.toNat).1 ++ piecesFrom (step s b.toNat).2 bs := rfl

theorem toNat_tail (n : Nat) : (tail n).toNat = 0x80 + n % 64 := by
  simp [tail]
  omega

theorem step_tail (n more low high code : Nat) (hl : low ≤ 0x80 + n % 64)
    (hh : 0x80 + n % 64 ≤ high) :
    step (.inside (more + 1) low high code) (tail n).toNat =
      ([], .inside more 0x80 0xBF (code * 64 + n % 64)) := by
  have h : (0x80 + n % 64) % 64 = n % 64 := by omega
  simp [step, toNat_tail, hl, hh, h]

theorem step_last (n low high code : Nat) (hl : low ≤ 0x80 + n % 64) (hh : 0x80 + n % 64 ≤ high) :
    step (.inside 0 low high code) (tail n).toNat =
      ([some (Char.ofNat (code * 64 + n % 64))], .start) := by
  have h : (0x80 + n % 64) % 64 = n % 64 := by omega
  simp [step, toNat_tail, hl, hh, h]

theorem toNat_valid (c : Char) : c.toNat < 0xD800 ∨ 0xDFFF < c.toNat ∧ c.toNat < 0x110000 := by
  have h := c.valid
  simpa [UInt32.isValidChar, Nat.isValidChar] using h

theorem step_start (n : Nat) (h : n < 256) : step .start (UInt8.ofNat n).toNat = begin n := by
  rw [UInt8.toNat_ofNat_of_lt' h]
  rfl

theorem begin_whole {n : Nat} (h : n < 0x80) : begin n = ([some (Char.ofNat n)], .start) := by
  simp [begin, lead, h]

theorem begin_two {k : Nat} (hl : 2 ≤ k) (hh : k < 32) :
    begin (0xC0 + k) = ([], .inside 0 0x80 0xBF k) := by
  simp [begin, lead, show ¬ 0xC0 + k < 0x80 by omega, show ¬ 0xC0 + k < 0xC2 by omega,
    show 0xC0 + k < 0xE0 by omega]

theorem begin_three {k : Nat} (h : k < 16) :
    begin (0xE0 + k) =
      ([], .inside 1 (if k = 0 then 0xA0 else 0x80) (if k = 0xD then 0x9F else 0xBF) k) := by
  simp [begin, lead, show ¬ 0xE0 + k < 0x80 by omega, show ¬ 0xE0 + k < 0xC2 by omega,
    show ¬ 0xE0 + k < 0xE0 by omega, show 0xE0 + k < 0xF0 by omega,
    show 0xE0 + k = 0xED ↔ k = 0xD by omega]

theorem begin_four {k : Nat} (h : k < 5) :
    begin (0xF0 + k) =
      ([], .inside 2 (if k = 0 then 0x90 else 0x80) (if k = 4 then 0x8F else 0xBF) k) := by
  simp [begin, lead, show ¬ 0xF0 + k < 0x80 by omega, show ¬ 0xF0 + k < 0xC2 by omega,
    show ¬ 0xF0 + k < 0xE0 by omega, show ¬ 0xF0 + k < 0xF0 by omega,
    show 0xF0 + k < 0xF5 by omega, show 0xF0 + k = 0xF4 ↔ k = 4 by omega]

theorem pieces_encodeChar (c : Char) (bs : Bytes) :
    pieces (encodeChar c ++ bs) = some c :: pieces bs := by
  have hv := toNat_valid c
  have hc : Char.ofNat c.toNat = c := Char.ofNat_toNat c
  simp only [encodeChar, pieces]
  generalize c.toNat = n at hv hc
  by_cases h1 : n < 0x80
  · rw [if_pos h1, List.cons_append, piecesFrom_cons, step_start n (by omega), begin_whole h1, hc]
    rfl
  by_cases h2 : n < 0x800
  · rw [if_neg h1, if_pos h2, List.cons_append, piecesFrom_cons, step_start _ (by omega),
      begin_two (by omega) (by omega), List.cons_append, piecesFrom_cons,
      step_last _ _ _ _ (by omega) (by omega), show n / 64 * 64 + n % 64 = n by omega, hc]
    rfl
  by_cases h3 : n < 0x10000
  · rw [if_neg h1, if_neg h2, if_pos h3, List.cons_append, piecesFrom_cons,
      step_start _ (by omega), begin_three (by omega), List.cons_append, piecesFrom_cons,
      step_tail _ _ _ _ _ (by split <;> omega) (by split <;> omega), List.cons_append,
      piecesFrom_cons, step_last _ _ _ _ (by omega) (by omega),
      show (n / 4096 * 64 + n / 64 % 64) * 64 + n % 64 = n by omega, hc]
    rfl
  · rw [if_neg h1, if_neg h2, if_neg h3, List.cons_append, piecesFrom_cons,
      step_start _ (by omega), begin_four (by omega), List.cons_append, piecesFrom_cons,
      step_tail _ _ _ _ _ (by split <;> omega) (by split <;> omega), List.cons_append,
      piecesFrom_cons, step_tail _ _ _ _ _ (by omega) (by omega), List.cons_append,
      piecesFrom_cons, step_last _ _ _ _ (by omega) (by omega),
      show ((n / 262144 * 64 + n / 4096 % 64) * 64 + n / 64 % 64) * 64 + n % 64 = n by omega, hc]
    rfl

theorem pieces_flatMap_encodeChar (cs : List Char) :
    pieces (cs.flatMap encodeChar) = cs.map some := by
  induction cs with
  | nil => rfl
  | cons c cs ih => rw [List.flatMap_cons, pieces_encodeChar, ih, List.map_cons]

@[simp] theorem decode?_encode (s : String) : decode? (encode s) = some s := by
  have h (cs : List Char) : (cs.map some).mapM (id : Option Char → Option Char) = some cs := by
    induction cs with
    | nil => rfl
    | cons c cs ih => simp [ih]
  simp [decode?, encode, pieces_flatMap_encodeChar, h]

end ModelBindings.Text.Utf8
