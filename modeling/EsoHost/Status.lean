/-!
# `EsoHost.Status`: what state an engine is in

Both engines report one of three states after every step. A halted
engine says why it halted and stays halted.
-/

set_option autoImplicit false

namespace EsoHost

/-- Why an engine halted. -/
inductive HaltReason where
  /-- There is no further instruction. -/
  | endOfProgram
  /-- The pointer cannot leave its block, or is caught in white. -/
  | blocked
  /-- A read found no input, and the policy is to halt then. -/
  | inputExhausted
  /-- The host asked for it. -/
  | stopped
  deriving DecidableEq, Repr

/-- The state of an engine. -/
inductive Status where
  | running
  /-- The last step was a read that has to wait; the next step tries it
  again. -/
  | awaitingInput
  | halted (reason : HaltReason)
  deriving DecidableEq, Repr

namespace Status

/-- The engine has halted. -/
def isHalted : Status → Bool
  | halted _ => true
  | _ => false

/-- The state after the host asks to stop: a halted engine keeps its
reason. -/
def stop : Status → Status
  | halted reason => halted reason
  | _ => halted .stopped

/-- A halted engine has a reason. -/
theorem exists_halted {s : Status} (h : s.isHalted) : ∃ reason, s = halted reason := by
  cases s with
  | halted reason => exact ⟨reason, rfl⟩
  | _ => cases h

/-- An engine that has not halted runs or waits. -/
theorem running_or_awaiting {s : Status} (h : ¬ s.isHalted) :
    s = running ∨ s = awaitingInput := by
  cases s with
  | running => exact Or.inl rfl
  | awaitingInput => exact Or.inr rfl
  | halted reason => exact absurd rfl h

/-- A request to stop halts whatever has not halted yet. -/
theorem stop_of_not_halted {s : Status} (h : ¬ s.isHalted) : s.stop = halted .stopped := by
  cases s with
  | halted reason => exact absurd rfl h
  | _ => rfl

/-- After a request to stop, every engine has halted. -/
@[simp]
theorem isHalted_stop (s : Status) : s.stop.isHalted := by
  cases s <;> rfl

end Status

end EsoHost
