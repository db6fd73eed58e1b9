import Mathlib.Algebra.Group.Nat.Defs
import ModelBindings.Text.Utf8

namespace ModelBindings.Text.Utf8

theorem toNat_ofNat {n : Nat} (h : n.isValidChar) : (Char.ofNat n).toNat = n := by
  rw [Char.ofNat, dif_pos h]
  rfl

theorem ofNat_eq {n : Nat} {b : UInt8} (h : n = b.toNat) : UInt8.ofNat n = b := by
  rw [h, UInt8.ofNat_toNat]

theorem tail_eq {n : Nat} {b : UInt8} (hl : 0x80 ≤ b.toNat) (hh : b.toNat ≤ 0xBF)
    (h : n % 64 = b.toNat % 64) : tail n = b := by
  rw [← UInt8.toNat_inj, toNat_tail]
  omega

def tails : Nat → Nat → Bytes
  | 0, _ => []
  | k + 1, n => tail (n / 64 ^ k) :: tails k n

/-- The bytes `pre` lead to the stage: they begin the encoding of each character that it leaves. -/
def Reached (pre : Bytes) : Stage → Prop
  | .start => pre = []
  | .inside more low high code => 0x80 ≤ low ∧ high ≤ 0xBF ∧
      ∀ n, n / 64 ^ (more + 1) = code → low ≤ 0x80 + n / 64 ^ more % 64 →
        0x80 + n / 64 ^ more % 64 ≤ high →
        encodeChar (Char.ofNat n) = pre ++ tails (more + 1) n

theorem encodeChar_one {b : UInt8} (h : b.toNat < 0x80) :
    encodeChar (Char.ofNat b.toNat) = [b] := by
  have hv : b.toNat.isValidChar := by left; omega
  rw [encodeChar, toNat_ofNat hv, if_pos h, UInt8.ofNat_toNat]

theorem reached_two {b : UInt8} (hl : 0xC2 ≤ b.toNat) (hh : b.toNat < 0xE0) :
    Reached [b] (.inside 0 0x80 0xBF (b.toNat - 0xC0)) := by
  refine ⟨by omega, by omega, fun n hn _ _ => ?_⟩
  have hn : n / 64 = b.toNat - 0xC0 := hn
  have hv : n.isValidChar := by left; omega
  have hb : UInt8.ofNat (0xC0 + n / 64) = b := ofNat_eq (by omega)
  rw [encodeChar, toNat_ofNat hv, if_neg (by omega), if_pos (by omega), hb]
  simp [tails]

theorem reached_three {b : UInt8} (hl : 0xE0 ≤ b.toNat) (hh : b.toNat < 0xF0) :
    Reached [b] (.inside 1 (if b.toNat = 0xE0 then 0xA0 else 0x80)
      (if b.toNat = 0xED then 0x9F else 0xBF) (b.toNat - 0xE0)) := by
  refine ⟨by split <;> omega, by split <;> omega, fun n hn hlow hhigh => ?_⟩
  have hn : n / 4096 = b.toNat - 0xE0 := hn
  have hlow : (if b.toNat = 0xE0 then 0xA0 else 0x80) ≤ 0x80 + n / 64 % 64 := hlow
  have hhigh : 0x80 + n / 64 % 64 ≤ if b.toNat = 0xED then 0x9F else 0xBF := hhigh
  have hsmall : 0x800 ≤ n := by split at hlow <;> omega
  have hsurrogate : n < 0xD800 ∨ 0xDFFF < n := by split at hhigh <;> omega
  have hv : n.isValidChar := by
    rcases hsurrogate with h | h
    · left; omega
    · right; omega
  have hb : UInt8.ofNat (0xE0 + n / 4096) = b := ofNat_eq (by omega)
  rw [encodeChar, toNat_ofNat hv, if_neg (by omega), if_neg (by omega), if_pos (by omega), hb]
  simp [tails]

theorem reached_four {b : UInt8} (hl : 0xF0 ≤ b.toNat) (hh : b.toNat < 0xF5) :
    Reached [b] (.inside 2 (if b.toNat = 0xF0 then 0x90 else 0x80)
      (if b.toNat = 0xF4 then 0x8F else 0xBF) (b.toNat - 0xF0)) := by
  refine ⟨by split <;> omega, by split <;> omega, fun n hn hlow hhigh => ?_⟩
  have hn : n / 262144 = b.toNat - 0xF0 := hn
  have hlow : (if b.toNat = 0xF0 then 0x90 else 0x80) ≤ 0x80 + n / 4096 % 64 := hlow
  have hhigh : 0x80 + n / 4096 % 64 ≤ if b.toNat = 0xF4 then 0x8F else 0xBF := hhigh
  have hsmall : 0x10000 ≤ n := by split at hlow <;> omega
  have hlarge : n < 0x110000 := by split at hhigh <;> omega
  have hv : n.isValidChar := by right; omega
  have hb : UInt8.ofNat (0xF0 + n / 262144) = b := ofNat_eq (by omega)
  rw [encodeChar, toNat_ofNat hv, if_neg (by omega), if_neg (by omega), if_neg (by omega), hb]
  simp [tails]

inductive Moves (pre : Bytes) (b : UInt8) : List (Option Char) × Stage → Prop where
  | gap {ps : List (Option Char)} {s : Stage} : none ∈ ps → Moves pre b (ps, s)
  | whole {c : Char} : encodeChar c = pre ++ [b] → Moves pre b ([some c], .start)
  | on {s : Stage} : Reached (pre ++ [b]) s → Moves pre b ([], s)

theorem moves_begin (b : UInt8) : Moves [] b (begin b.toNat) := by
  rw [begin, lead]
  by_cases h1 : b.toNat < 0x80
  · rw [if_pos h1]
    exact .whole (encodeChar_one h1)
  by_cases h2 : b.toNat < 0xC2
  · rw [if_neg h1, if_pos h2]
    exact .gap List.mem_cons_self
  by_cases h3 : b.toNat < 0xE0
  · rw [if_neg h1, if_neg h2, if_pos h3]
    exact .on (reached_two (by omega) h3)
  by_cases h4 : b.toNat < 0xF0
  · rw [if_neg h1, if_neg h2, if_neg h3, if_pos h4]
    exact .on (reached_three (by omega) h4)
  by_cases h5 : b.toNat < 0xF5
  · rw [if_neg h1, if_neg h2, if_neg h3, if_neg h4, if_pos h5]
    exact .on (reached_four (by omega) h5)
  · rw [if_neg h1, if_neg h2, if_neg h3, if_neg h4, if_neg h5]
    exact .gap List.mem_cons_self

theorem moves_step {pre : Bytes} {s : Stage} (h : Reached pre s) (b : UInt8) :
    Moves pre b (step s b.toNat) := by
  cases s with
  | start =>
    have hpre : pre = [] := h
    rw [hpre]
    exact moves_begin b
  | inside more low high code =>
    obtain ⟨hlow, hhigh, hn⟩ := h
    rw [step]
    by_cases hb : low ≤ b.toNat ∧ b.toNat ≤ high
    · rw [if_pos hb]
      obtain ⟨hbl, hbh⟩ := hb
      cases more with
      | zero =>
        have hc := hn (code * 64 + b.toNat % 64) (by omega) (by omega) (by omega)
        have ht : tail (code * 64 + b.toNat % 64) = b := tail_eq (by omega) (by omega) (by omega)
        refine .whole (hc.trans ?_)
        simp [tails, ht]
      | succ more =>
        refine .on ⟨by omega, by omega, fun n hcode _ _ => ?_⟩
        have hdiv : n / 64 ^ (more + 1 + 1) = n / 64 ^ (more + 1) / 64 := by
          rw [Nat.div_div_eq_div_mul, ← Nat.pow_succ]
        have ht : tail (n / 64 ^ (more + 1)) = b := tail_eq (by omega) (by omega) (by omega)
        have hc := hn n (by omega) (by omega) (by omega)
        rw [hc, tails, ht, List.append_assoc, List.singleton_append]
    · rw [if_neg hb]
      exact .gap List.mem_cons_self

theorem encode_of_piecesFrom {pre bs : Bytes} {s : Stage} {cs : List Char} (h : Reached pre s)
    (hp : piecesFrom s bs = cs.map some) : pre ++ bs = cs.flatMap encodeChar := by
  induction bs generalizing pre s cs with
  | nil =>
    cases s with
    | start =>
      cases cs with
      | nil =>
        have hpre : pre = [] := h
        rw [hpre]
        rfl
      | cons c cs => cases hp
    | inside more low high code =>
      cases cs with
      | nil => cases hp
      | cons c cs => cases hp
  | cons b bs ih =>
    rw [piecesFrom_cons] at hp
    have hm := moves_step h b
    generalize step s b.toNat = r at hm hp
    cases hm with
    | gap hgap =>
      have hmem : none ∈ cs.map some := hp ▸ List.mem_append_left _ hgap
      simp at hmem
    | @whole c hc =>
      cases cs with
      | nil => cases hp
      | cons c' cs =>
        obtain ⟨hc', hp⟩ := List.cons.inj hp
        have hstart : Reached [] .start := rfl
        rw [List.flatMap_cons, ← Option.some.inj hc', hc, ← ih hstart hp]
        simp
    | on hr =>
      have hbs := ih hr hp
      rwa [List.append_assoc, List.singleton_append] at hbs

theorem eq_map_of_mapM {ps : List (Option Char)} {cs : List Char} (h : ps.mapM id = some cs) :
    ps = cs.map some := by
  induction ps generalizing cs with
  | nil =>
    cases h
    rfl
  | cons p ps ih =>
    rw [List.mapM_cons] at h
    obtain ⟨c, hp, h⟩ := Option.bind_eq_some_iff.mp h
    obtain ⟨ds, hps, h⟩ := Option.bind_eq_some_iff.mp h
    cases h
    rw [List.map_cons, ← ih hps, ← hp, id]

theorem decode?_eq_some_iff {bs : Bytes} {text : String} :
    decode? bs = some text ↔ bs = encode text := by
  constructor
  · intro h
    obtain ⟨cs, hcs, rfl⟩ := Option.map_eq_some_iff.mp h
    rw [encode, String.toList_ofList]
    have hstart : Reached [] .start := rfl
    exact encode_of_piecesFrom hstart (eq_map_of_mapM hcs)
  · rintro rfl
    exact decode?_encode text

end ModelBindings.Text.Utf8
