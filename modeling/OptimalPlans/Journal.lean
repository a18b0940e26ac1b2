import OptimalPlans.Fault

/-!
# Journals

A computation that takes notes while it runs.  The notes taken before a fault are
kept.  `result_bind` says that taking notes has no influence on results: the
result of a sequence is the sequence of the results.
-/

namespace OptimalPlans

inductive Level where
  | debug
  | info
  | warning
  | error
deriving DecidableEq, Repr

def Level.name : Level → String
  | debug => "DEBUG"
  | info => "INFO"
  | warning => "WARNING"
  | error => "ERROR"

/-- Whether notes of this level are shown without asking for details. -/
def Level.isBrief : Level → Bool
  | debug => false
  | _ => true

/-- Which part of the program takes a note. -/
inductive Channel where
  | commandLine
  | problemFile
  | dispatch
  | transportSolver
  | transportInput
  | penaltyRule
  | basis
  | refinement
  | assignment
  | plane
  | precedence
deriving DecidableEq, Repr

/-- The name of a channel in a log. -/
def Channel.name : Channel → String
  | commandLine => "operations.main"
  | problemFile => "operations.parser"
  | dispatch => "operations.dispatch"
  | transportSolver => "transportation.solver"
  | transportInput => "transportation.utils"
  | penaltyRule => "transportation.initial_methods"
  | basis => "transportation.utils"
  | refinement => "transportation.modi"
  | assignment => "assignment.hungarian"
  | plane => "graphical_lp.graphical_solver"
  | precedence => "network_flow.precedence"

structure Note where
  channel : Channel
  level : Level
  text : String
deriving DecidableEq, Repr

/-- The note as a line of a log. -/
def Note.line (note : Note) : String :=
  note.channel.name ++ " - " ++ note.level.name ++ " - " ++ note.text

structure Journal (α : Type) where
  notes : List Note
  result : Except Fault α

namespace Journal

variable {α β : Type}

def ofExcept (result : Except Fault α) : Journal α :=
  ⟨[], result⟩

def bind (first : Journal α) (next : α → Journal β) : Journal β :=
  match first.result with
  | .ok value => ⟨first.notes ++ (next value).notes, (next value).result⟩
  | .error fault => ⟨first.notes, .error fault⟩

instance : Monad Journal where
  pure value := ofExcept (.ok value)
  bind := bind

instance : MonadLift (Except Fault) Journal where
  monadLift := ofExcept

def note (channel : Channel) (level : Level) (text : String) : Journal Unit :=
  ⟨[⟨channel, level, text⟩], .ok ()⟩

/-- Takes several notes of one kind. -/
def noteAll (channel : Channel) (level : Level) (texts : List String) :
    Journal Unit :=
  ⟨texts.map fun text => ⟨channel, level, text⟩, .ok ()⟩

/-- Goes on after a fault that `recovers` accepts. -/
def recover (attempt : Journal α) (recovers : Fault → Option (Journal α)) :
    Journal α :=
  match attempt.result with
  | .ok _ => attempt
  | .error fault =>
      match recovers fault with
      | none => attempt
      | some next => ⟨attempt.notes ++ next.notes, next.result⟩

instance : MonadExcept Fault Journal where
  throw fault := ofExcept (.error fault)
  tryCatch attempt handle := attempt.recover fun fault => some (handle fault)

@[simp] theorem result_throw (fault : Fault) :
    (throw fault : Journal α).result = .error fault := rfl

@[simp] theorem result_pure (value : α) :
    (pure value : Journal α).result = .ok value := rfl

@[simp] theorem result_ofExcept (result : Except Fault α) :
    (ofExcept result).result = result := rfl

@[simp] theorem result_monadLift (result : Except Fault α) :
    (monadLift result : Journal α).result = result := rfl

@[simp] theorem result_note (channel : Channel) (level : Level) (text : String) :
    (note channel level text).result = .ok () := rfl

@[simp] theorem result_noteAll (channel : Channel) (level : Level)
    (texts : List String) :
    (noteAll channel level texts).result = .ok () := rfl

@[simp] theorem result_bind (first : Journal α) (next : α → Journal β) :
    (first >>= next).result = (first.result >>= fun value => (next value).result) := by
  show (bind first next).result = _
  unfold bind
  cases first.result with
  | ok value => rfl
  | error fault => rfl

end Journal

end OptimalPlans
