namespace ModelBindings.Json

inductive Segment where
  | key (name : String)
  | index (i : Nat)
  | unknown
  deriving DecidableEq, Repr

abbrev Path := List Segment

def Segment.text : Segment → String
  | .key name => name
  | .index i => "[" ++ toString i ++ "]"
  | .unknown => "?"

def Segment.joined : Segment → String
  | .index i => Segment.text (.index i)
  | s => "." ++ s.text

def Path.text : Path → String
  | [] => "."
  | s :: ss => s.text ++ String.join (ss.map Segment.joined)

structure Located (ε : Type) where
  path : Path
  what : ε
  deriving DecidableEq, Repr

def atRoot {ε α : Type} (r : Except ε α) : Except (Located ε) α :=
  r.mapError fun e => ⟨[], e⟩

def within {ε α : Type} (s : Segment) (r : Except (Located ε) α) : Except (Located ε) α :=
  r.mapError fun e => { e with path := s :: e.path }

end ModelBindings.Json
