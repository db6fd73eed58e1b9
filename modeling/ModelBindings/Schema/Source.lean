import ModelBindings.Schema.Document

namespace ModelBindings.Schema

inductive Ending where
  | exit (code : Nat)
  | signal (number : Nat)
  deriving DecidableEq, Repr

inductive FetchError where
  | notStarted (program : String) (reason : String)
  | failed (program : String) (ending : Ending) (complaint : String)
  | late (program : String) (seconds : Nat)
  | notText (program : String)
  | document (e : Error)
  | unknownModel
  deriving DecidableEq, Repr

def signalName : Nat → Option String
  | 1 => some "SIGHUP"
  | 2 => some "SIGINT"
  | 3 => some "SIGQUIT"
  | 4 => some "SIGILL"
  | 5 => some "SIGTRAP"
  | 6 => some "SIGABRT"
  | 7 => some "SIGBUS"
  | 8 => some "SIGFPE"
  | 9 => some "SIGKILL"
  | 10 => some "SIGUSR1"
  | 11 => some "SIGSEGV"
  | 12 => some "SIGUSR2"
  | 13 => some "SIGPIPE"
  | 14 => some "SIGALRM"
  | 15 => some "SIGTERM"
  | 16 => some "SIGSTKFLT"
  | 17 => some "SIGCHLD"
  | 18 => some "SIGCONT"
  | 19 => some "SIGSTOP"
  | 20 => some "SIGTSTP"
  | 21 => some "SIGTTIN"
  | 22 => some "SIGTTOU"
  | 23 => some "SIGURG"
  | 24 => some "SIGXCPU"
  | 25 => some "SIGXFSZ"
  | 26 => some "SIGVTALRM"
  | 27 => some "SIGPROF"
  | 28 => some "SIGWINCH"
  | 29 => some "SIGIO"
  | 30 => some "SIGPWR"
  | 31 => some "SIGSYS"
  | _ => none

def Ending.text : Ending → String
  | .exit code => "exit status: " ++ toString code
  | .signal n =>
      "signal: " ++ toString n ++
        match signalName n with
        | some name => " (" ++ name ++ ")"
        | none => ""

def FetchError.message : FetchError → String
  | .notStarted program reason => "failed to run `" ++ program ++ "`: " ++ reason
  | .failed program ending complaint =>
      "`" ++ program ++ "` exited with " ++ ending.text ++ ": " ++ complaint
  | .late program seconds => "`" ++ program ++ "` timed out after " ++ toString seconds ++ "s"
  | .notText program => "`" ++ program ++ "` produced non UTF-8 output"
  | .document e => e.message
  | .unknownModel => "no schema available"

def FetchError.chain : FetchError → List String
  | .notStarted program reason => [FetchError.message (.notStarted program reason), reason]
  | e => [e.message]

abbrev Source := String → Except FetchError Node

def Source.answer (document : String) : Except FetchError Node :=
  (Node.ofDocument document).mapError .document

/-- Documents by the name of their model, each name once. -/
structure Store where
  documents : List (String × String)
  deriving Repr, Inhabited

namespace Store

def empty : Store := ⟨[]⟩

def add (s : Store) (model document : String) : Store :=
  ⟨(model, document) :: s.documents.filter fun d => d.1 != model⟩

def document? (s : Store) (model : String) : Option String :=
  s.documents.lookup model

theorem document?_add_self (s : Store) (model document : String) :
    (s.add model document).document? model = some document := by
  simp [add, document?]

theorem document?_add_of_ne (s : Store) {model model' : String} (h : model' ≠ model)
    (document : String) : (s.add model document).document? model' = s.document? model' := by
  simp only [add, document?, List.lookup_cons, beq_false_of_ne h]
  induction s.documents with
  | nil => rfl
  | cons d ds ih =>
    obtain ⟨k, v⟩ := d
    by_cases hk : k = model
    · subst hk
      simpa [List.lookup_cons, beq_false_of_ne h] using ih
    · simp [hk, List.lookup_cons, ih]

def source (s : Store) : Source := fun model =>
  match s.document? model with
  | some d => Source.answer d
  | none => .error .unknownModel

end Store

end ModelBindings.Schema
