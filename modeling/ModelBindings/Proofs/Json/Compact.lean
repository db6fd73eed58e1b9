import ModelBindings.Json.Printer
import ModelBindings.Json.Value

namespace ModelBindings.Json

section

variable (digits : Number → String)

mutual
/-- How numbers are written is left open. -/
def Value.text : Value → String
  | .null => "null"
  | .bool b => if b then "true" else "false"
  | .number n => digits n
  | .string s => printString s
  | .array items => "[" ++ itemsText true items ++ "]"
  | .object members => "\x7b" ++ membersText true members ++ "\x7d"
termination_by structural v => v

def itemsText (first : Bool) : List Value → String
  | [] => ""
  | v :: vs => (if first then "" else ",") ++ v.text ++ itemsText false vs
termination_by structural vs => vs

def membersText (first : Bool) : Members → String
  | [] => ""
  | (k, v) :: ms =>
      (if first then "" else ",") ++ printString k ++ ":" ++ v.text ++ membersText false ms
termination_by structural ms => ms
end

theorem itemsText_strings (s : String) (ss : List String) (first : Bool) :
    itemsText digits first ((s :: ss).map .string) =
      (if first then "" else ",") ++ ",".intercalate ((s :: ss).map printString) := by
  induction ss generalizing s first with
  | nil => simp [itemsText, Value.text]
  | cons s' ss ih =>
    have hrest := ih s' false
    simp only [List.map_cons] at hrest ⊢
    rw [itemsText, hrest, String.intercalate_cons_cons, Value.text]
    simp [String.append_assoc]

theorem text_strings (ss : List String) :
    (Value.array (ss.map .string)).text digits = printStrings ss := by
  rw [Value.text, printStrings]
  cases ss with
  | nil => rfl
  | cons s ss => rw [itemsText_strings, if_pos rfl, String.empty_append]

end

end ModelBindings.Json
