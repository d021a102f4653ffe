import Reddcoin.Primitives.Transaction

/-!
# Validation outcomes

`CValidationState` of `main.h`, and the checks that fill it.  A check that returns false hands its
caller the state it leaves behind; an assertion or an exception stops the whole call.
-/

namespace Reddcoin

def REJECT_INVALID : Nat := 0x10
def REJECT_OBSOLETE : Nat := 0x11
def REJECT_NONSTANDARD : Nat := 0x40
def REJECT_CHECKPOINT : Nat := 0x43

inductive ValidationMode where
  | valid
  | invalid
  | error
deriving DecidableEq

structure CValidationState where
  mode : ValidationMode
  nDoS : Nat
  strRejectReason : String
  chRejectCode : Nat
  corruptionPossible : Bool
deriving DecidableEq

namespace CValidationState

def new : CValidationState :=
  { mode := .valid, nDoS := 0, strRejectReason := "", chRejectCode := 0,
    corruptionPossible := false }

def doS (s : CValidationState) (level : Nat) (chRejectCodeIn : Nat) (strRejectReasonIn : String)
    (corruptionIn : Bool) : CValidationState :=
  let s := { s with
    chRejectCode := chRejectCodeIn, strRejectReason := strRejectReasonIn,
    corruptionPossible := corruptionIn }
  if s.mode = .error then s else { s with nDoS := s.nDoS + level, mode := .invalid }

def invalid (s : CValidationState) (chRejectCodeIn : Nat) (strRejectReasonIn : String) :
    CValidationState :=
  s.doS 0 chRejectCodeIn strRejectReasonIn false

def err (s : CValidationState) (strRejectReasonIn : String) : CValidationState :=
  if s.mode = .valid then { s with strRejectReason := strRejectReasonIn, mode := .error }
  else { s with mode := .error }

def isInvalid (s : CValidationState) : Bool :=
  decide (s.mode = .invalid)

end CValidationState

/-- Why a call did not succeed. -/
inductive Stop where
  /-- It returned false and left this state. -/
  | returns (state : CValidationState)
  /-- An assertion failed or an exception escaped. -/
  | crashes
deriving DecidableEq

abbrev Check := Except Stop

/-- `return state.DoS(..)` on a fresh state. -/
def rejectDoS (level : Nat) (code : Nat) (reason : String) (corruption : Bool) : Stop :=
  .returns (CValidationState.new.doS level code reason corruption)

/-- `return state.Invalid(..)` on a fresh state. -/
def rejectInvalid (code : Nat) (reason : String) : Stop :=
  .returns (CValidationState.new.invalid code reason)

/-- `return error(..)`: false, with the state untouched. -/
def returnError : Stop :=
  .returns CValidationState.new

/-- Go on when `b` holds, else stop. -/
def require (b : Bool) (stop : Stop) : Check Unit :=
  if b then .ok () else .error stop

/-- Make the check `x` only when `b` holds. -/
def onlyIf (b : Bool) (x : Check Unit) : Check Unit :=
  if b then x else .ok ()

/-- The value of a call that may throw. -/
def orCrash {α : Type} (x : Option α) : Check α :=
  match x with
  | some a => .ok a
  | none => .error .crashes

@[simp]
theorem require_eq_ok {b : Bool} {stop : Stop} : require b stop = .ok () ↔ b = true := by
  cases b <;> simp [require]

@[simp]
theorem onlyIf_eq_ok {b : Bool} {x : Check Unit} : onlyIf b x = .ok () ↔ (b → x = .ok ()) := by
  cases b <;> simp [onlyIf]

theorem check_bind_ok {ε α β : Type} {x : Except ε α} {f : α → Except ε β} {b : β} :
    (x >>= f) = .ok b ↔ ∃ a, x = .ok a ∧ f a = .ok b := by
  rcases x with stop | a
  · exact ⟨fun h => by simp [bind, Except.bind] at h, fun ⟨_, h, _⟩ => by simp at h⟩
  · exact ⟨fun h => ⟨a, rfl, h⟩, fun ⟨_, h, hf⟩ => by rw [Except.ok.inj h]; exact hf⟩

/-- Two checks in sequence, the first without a value. -/
@[simp]
theorem check_seq_ok {ε β : Type} {x : Except ε Unit} {f : Unit → Except ε β} {b : β} :
    (x >>= f) = .ok b ↔ x = .ok () ∧ f () = .ok b := by
  rw [check_bind_ok]
  exact ⟨fun ⟨_, h⟩ => h, fun h => ⟨(), h⟩⟩

/-- A computed result is the result of a call that succeeded. -/
theorem exists_ok_of_toOption {α β : Type} {x : Check α} {f : α → β} {b : β}
    (h : x.toOption.map f = some b) : ∃ a, x = .ok a ∧ f a = b := by
  cases x with
  | error stop => simp [Except.toOption] at h
  | ok a => exact ⟨a, rfl, by simpa [Except.toOption] using h⟩

@[simp]
theorem orCrash_eq_ok {α : Type} {x : Option α} {a : α} : orCrash x = .ok a ↔ x = some a := by
  cases x <;> simp [orCrash]

@[simp]
theorem check_pure_ok {ε α : Type} {a b : α} : (pure a : Except ε α) = .ok b ↔ a = b := by
  simp [pure, Except.pure]

end Reddcoin
