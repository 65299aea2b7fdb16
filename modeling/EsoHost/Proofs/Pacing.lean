import Mathlib.Data.List.Basic
import EsoHost.Proofs.Bursts
import EsoHost.Proofs.Staging

/-!
# `EsoHost.Proofs.Pacing`: no run outruns the clock

The budget of a burst is worked out in 64-bit words: the time is cut to
whole microseconds and to a word, multiplied, divided and capped. Each
burst rounds on its own, and a host may cut a run into any number of
them. This module shows that the words never overflow, and that all
roundings together stay below the exact product of time and pace.

* `Session.countedBurst?` is a burst with its arithmetic in words, and
  with the counter of its loop. It has no value where an operation on
  words would trap. `Session.exists_countedBurst?` shows that it always
  has one, and that this is the burst and the number of its steps.
* `Pace.exact` is the whole number of steps that a stretch of time
  allows. It is superadditive (`Pace.exact_add_le`): cutting a stretch
  in two never adds a step.
* `Session.Loaded.stepsDuring_le_allowance`: the steps of a run are
  bounded by the budgets of its bursts (`Pace.allowance`), and these by
  the exact number for the whole time (`Pace.allowance_le_exact`).
* `run_keeps_pace` puts these together.
-/

set_option autoImplicit false

namespace EsoHost

/-! ### Arithmetic that may trap -/

namespace Checked

/-- The product, if it is a word. -/
def mul? (a b : UInt64) : Option UInt64 :=
  if a.toNat * b.toNat < UInt64.size then some (a * b) else none

/-- The quotient, unless the divisor is zero. -/
def div? (a b : UInt64) : Option UInt64 := if b = 0 then none else some (a / b)

/-- The product, or the greatest word if it is greater. -/
def mulSaturating (a b : UInt64) : UInt64 :=
  if a.toNat * b.toNat < UInt64.size then a * b else UInt64.ofNat (UInt64.size - 1)

section

variable {a b : UInt64}

/-- A product that is a word does not trap, and is the product. -/
theorem exists_mul? (h : a.toNat * b.toNat < UInt64.size) :
    ∃ c, mul? a b = some c ∧ c.toNat = a.toNat * b.toNat :=
  ⟨a * b, if_pos h, by rw [UInt64.toNat_mul]; exact Nat.mod_eq_of_lt h⟩

/-- A quotient does not trap unless the divisor is zero. -/
theorem exists_div? (h : b ≠ 0) : ∃ c, div? a b = some c ∧ c.toNat = a.toNat / b.toNat :=
  ⟨a / b, if_neg h, UInt64.toNat_div a b⟩

/-- Saturation is a minimum. -/
theorem toNat_mulSaturating (a b : UInt64) :
    (mulSaturating a b).toNat = min (a.toNat * b.toNat) (UInt64.size - 1) := by
  unfold mulSaturating
  split
  · rename_i h
    rw [UInt64.toNat_mul, Nat.mod_eq_of_lt h]
    omega
  · rename_i h
    rw [UInt64.toNat_ofNat_of_lt' (by decide)]
    omega

end

end Checked

namespace Pace

/-- The budget, in words. -/
def wordBudget? (p : Pace) (elapsed : Nat) : Option UInt64 := do
  let micros := UInt64.ofNat (elapsed / 1000)
  let allowed ← Checked.div? (Checked.mulSaturating micros p.opsPerMs.toUInt64) 1000
  let most ← Checked.mul? p.opsPerMs.toUInt64 p.burstMultiplier.toUInt64
  return if allowed ≤ most then allowed else most

/-- The cap on a burst is a word: it is a product of two half words. -/
theorem maxBurst_lt (p : Pace) : p.maxBurst < UInt64.size := by
  have hops := Nat.le_sub_one_of_lt p.opsPerMs.toNat_lt_size
  have hmultiplier := Nat.le_sub_one_of_lt p.burstMultiplier.toNat_lt_size
  calc p.maxBurst ≤ (UInt32.size - 1) * (UInt32.size - 1) := Nat.mul_le_mul hops hmultiplier
    _ < UInt64.size := by decide

/-- No operation traps, and the words are the numbers. -/
theorem exists_wordBudget? (p : Pace) (elapsed : Nat) :
    ∃ w, p.wordBudget? elapsed = some w ∧ w.toNat = p.budget elapsed := by
  -- The two products have to be told apart: one saturates, the other
  -- would trap but never does.
  have hmost : p.opsPerMs.toUInt64.toNat * p.burstMultiplier.toUInt64.toNat = p.maxBurst := by
    rw [UInt32.toNat_toUInt64, UInt32.toNat_toUInt64, maxBurst]
  obtain ⟨allowed, hdiv, hallowed⟩ := Checked.exists_div?
    (a := Checked.mulSaturating (UInt64.ofNat (elapsed / 1000)) p.opsPerMs.toUInt64)
    (b := 1000) (by decide)
  obtain ⟨most, hmul, hproduct⟩ := Checked.exists_mul? (hmost ▸ p.maxBurst_lt)
  rw [Checked.toNat_mulSaturating, UInt64.toNat_ofNat', UInt32.toNat_toUInt64] at hallowed
  rw [hmost] at hproduct
  have hbudget : p.budget elapsed = min allowed.toNat most.toNat := by
    rw [hallowed, hproduct]
    rfl
  refine ⟨if allowed ≤ most then allowed else most, ?_, ?_⟩
  · simp only [wordBudget?, hdiv, hmul, Option.bind_eq_bind, Option.bind_some, Option.pure_def]
  · rw [hbudget]
    split
    · rename_i hle
      exact (Nat.min_eq_left (UInt64.le_iff_toNat_le.mp hle)).symm
    · rename_i hlt
      rw [UInt64.le_iff_toNat_le] at hlt
      omega

end Pace

/-! ### The loop of a burst, counted -/

namespace Session

/-- Counting on is exact as long as it does not overflow. -/
theorem toNat_count_succ {executed : UInt64} (h : executed.toNat + 1 < UInt64.size) :
    (executed + 1).toNat = executed.toNat + 1 := by
  rw [UInt64.toNat_add, UInt64.toNat_one]
  exact Nat.mod_eq_of_lt h

/-- The loop of a burst, with its counter, which says how many steps were
made. It has no value if the counter is about to overflow. -/
def countedAdvance? (budget executed : UInt64) (e : Engine) (t : Transcript) :
    Option (UInt64 × RunState × Engine × Transcript) :=
  match e.status with
  | .halted reason => some (executed, .finished reason, e, t.printStop)
  | _ =>
    if budget ≤ executed then some (executed, .running, e, t)
    else if executed.toNat + 1 < UInt64.size then
      match (e.step t).1.status with
      | .awaitingInput => some (executed + 1, .awaitingInput, e.step t)
      | _ => countedAdvance? budget (executed + 1) (e.step t).1 (e.step t).2
    else none
termination_by budget.toNat - executed.toNat
decreasing_by
  rename_i hlt hfits
  rw [UInt64.le_iff_toNat_le] at hlt
  rw [toNat_count_succ hfits]
  omega

section CountedAdvance

variable {budget executed : UInt64} {e : Engine} {t : Transcript}

/-- The loop ends at a halt, without another step. -/
theorem countedAdvance?_of_halted {reason : HaltReason} (h : e.status = .halted reason) :
    countedAdvance? budget executed e t
      = some (executed, .finished reason, e, t.printStop) := by
  rw [countedAdvance?]
  simp only [h]

/-- It ends when the budget is used up. -/
theorem countedAdvance?_of_le (h : ¬ e.status.isHalted) (hle : budget ≤ executed) :
    countedAdvance? budget executed e t = some (executed, .running, e, t) := by
  rw [countedAdvance?]
  rcases Status.running_or_awaiting h with hstatus | hstatus <;> simp only [hstatus, if_pos hle]

/-- It ends after a step that waits, which counts. -/
theorem countedAdvance?_of_awaiting (h : ¬ e.status.isHalted) (hlt : ¬ budget ≤ executed)
    (hfits : executed.toNat + 1 < UInt64.size) (hwait : (e.step t).1.status = .awaitingInput) :
    countedAdvance? budget executed e t = some (executed + 1, .awaitingInput, e.step t) := by
  rw [countedAdvance?]
  rcases Status.running_or_awaiting h with hstatus | hstatus <;>
    simp only [hstatus, if_neg hlt, if_pos hfits, hwait]

/-- It goes on after any other step. -/
theorem countedAdvance?_of_going (h : ¬ e.status.isHalted) (hlt : ¬ budget ≤ executed)
    (hfits : executed.toNat + 1 < UInt64.size) (hwait : (e.step t).1.status ≠ .awaitingInput) :
    countedAdvance? budget executed e t
      = countedAdvance? budget (executed + 1) (e.step t).1 (e.step t).2 := by
  rw [countedAdvance?]
  rcases Status.running_or_awaiting h with hstatus | hstatus <;>
    simp only [hstatus, if_neg hlt, if_pos hfits]

/-- The counter stops at the budget, which is a word, so it does not
overflow. What it says is what `advanceSteps` counts. -/
theorem exists_countedAdvance? {n : Nat} (h : executed.toNat + n = budget.toNat) :
    ∃ w, countedAdvance? budget executed e t = some (w, advance n e t) ∧
      w.toNat = executed.toNat + advanceSteps n e t := by
  -- The induction is on the steps that the budget has left.
  induction n generalizing executed e t with
  | zero =>
    by_cases hhalted : e.status.isHalted
    · obtain ⟨reason, hreason⟩ := Status.exists_halted hhalted
      rw [countedAdvance?_of_halted hreason, advance_of_halted hreason]
      exact ⟨executed, rfl, rfl⟩
    · rw [countedAdvance?_of_le hhalted (UInt64.le_iff_toNat_le.mpr (by omega)),
        advance_zero hhalted]
      exact ⟨executed, rfl, rfl⟩
  | succ n ih =>
    by_cases hhalted : e.status.isHalted
    · obtain ⟨reason, hreason⟩ := Status.exists_halted hhalted
      rw [countedAdvance?_of_halted hreason, advance_of_halted hreason, advanceSteps,
        if_pos hhalted]
      exact ⟨executed, rfl, rfl⟩
    · have hlt : ¬ budget ≤ executed := by
        rw [UInt64.le_iff_toNat_le]
        omega
      -- The counter is below the budget, which is a word.
      have hfits : executed.toNat + 1 < UInt64.size := by
        have := budget.toNat_lt_size
        omega
      have hnext := toNat_count_succ hfits
      by_cases hwait : (e.step t).1.status = .awaitingInput
      · rw [countedAdvance?_of_awaiting hhalted hlt hfits hwait,
          advance_succ_of_awaiting hhalted hwait, advanceSteps, if_neg hhalted, if_pos hwait]
        exact ⟨_, rfl, hnext⟩
      · rw [countedAdvance?_of_going hhalted hlt hfits hwait, advance_succ hhalted hwait,
          advanceSteps, if_neg hhalted, if_neg hwait]
        obtain ⟨w, hw, hcount⟩ := ih (e := (e.step t).1) (t := (e.step t).2)
          (show (executed + 1).toNat + n = budget.toNat by omega)
        exact ⟨w, hw, by omega⟩

end CountedAdvance

/-- A burst in words, and the number of steps that it makes. -/
def countedBurst? (s : Session) (now : Nat) : Option (UInt64 × Session) :=
  match s.engine with
  | none => some (0, { s with lastBurst := now })
  | some e =>
    let e := if s.stopRequested then e.stop else e
    if s.state.isRunning ∧
        (s.state = .awaitingInput → e.status.isHalted ∨ s.transcript.hasPending) then do
      let budget ← s.pace.wordBudget? (now - s.lastBurst)
      let (executed, state, e, t) ← countedAdvance? budget 0 e s.transcript
      return (executed, { s with state, engine := some e, transcript := t, lastBurst := now })
    else
      some (0, { s with lastBurst := now })

/-- The steps during a burst are those of the run in progress, if there
is one. -/
theorem stepsDuring_burst (s : Session) (now : Nat) :
    s.stepsDuring [.burst now]
      = if s.state.isRunning then s.burstSteps (s.pace.budget (now - s.lastBurst)) else 0 :=
  s.count_step_burst now

section CountedBurst

variable {s : Session} {e : Engine}

/-- The steps of a burst that makes any. -/
theorem burstSteps_of_ready (he : s.engine = some e)
    (hready : s.state = .awaitingInput →
      (if s.stopRequested then e.stop else e).status.isHalted ∨ s.transcript.hasPending)
    (budget : Nat) :
    s.burstSteps budget
      = advanceSteps budget (if s.stopRequested then e.stop else e) s.transcript := by
  simp only [burstSteps, he]
  rw [if_neg]
  rintro ⟨hwait, hlive, hempty⟩
  rcases hready hwait with hhalted | hpending
  · rw [hhalted] at hlive
    cases hlive
  · rw [hpending] at hempty
    cases hempty

/-- A burst that makes its steps does not trap. -/
theorem exists_countedBurst?_of_ready (he : s.engine = some e) (hstate : s.state.isRunning)
    (hready : s.state = .awaitingInput →
      (if s.stopRequested then e.stop else e).status.isHalted ∨ s.transcript.hasPending)
    (now : Nat) :
    ∃ executed, s.countedBurst? now = some (executed, s.burst now) ∧
      executed.toNat = s.burstSteps (s.pace.budget (now - s.lastBurst)) := by
  obtain ⟨budget, hbudget, htoNat⟩ := s.pace.exists_wordBudget? (now - s.lastBurst)
  obtain ⟨executed, hloop, hcount⟩ := exists_countedAdvance?
    (e := if s.stopRequested then e.stop else e) (t := s.transcript)
    (show (0 : UInt64).toNat + budget.toNat = budget.toNat from Nat.zero_add _)
  refine ⟨executed, ?_, ?_⟩
  · have hburst := burstOf_eq_advance budget.toNat he hstate hready
    rw [countedBurst?, burst, ← htoNat, hburst, he]
    simp only [if_pos (And.intro hstate hready), hbudget, hloop, Option.bind_eq_bind,
      Option.bind_some, Option.pure_def]
  · rw [burstSteps_of_ready he hready, ← htoNat, hcount]
    exact Nat.zero_add _

/-- A burst that has nothing to do counts nothing, and does no
arithmetic. -/
theorem countedBurst?_of_rest (he : s.engine = some e)
    (hrest : ¬ (s.state.isRunning ∧ (s.state = .awaitingInput →
      (if s.stopRequested then e.stop else e).status.isHalted ∨ s.transcript.hasPending)))
    (now : Nat) : s.countedBurst? now = some (0, { s with lastBurst := now }) := by
  simp only [countedBurst?, he, if_neg hrest]

end CountedBurst

/-- No burst traps, and its counter is right. -/
theorem exists_countedBurst? (s : Session) (now : Nat) :
    ∃ executed, s.countedBurst? now = some (executed, s.burst now) ∧
      executed.toNat = s.stepsDuring [.burst now] := by
  rw [stepsDuring_burst]
  cases he : s.engine with
  | none =>
    refine ⟨0, by simp only [countedBurst?, burst, burstOf, he], ?_⟩
    simp only [burstSteps, he, ite_self]
    rfl
  | some e =>
    by_cases hstate : s.state.isRunning
    · rw [if_pos hstate]
      by_cases hready : s.state = .awaitingInput →
          (if s.stopRequested then e.stop else e).status.isHalted ∨ s.transcript.hasPending
      · exact exists_countedBurst?_of_ready he hstate hready now
      · rw [countedBurst?_of_rest he fun h => hready h.2]
        simp only [Classical.not_imp, not_or] at hready
        obtain ⟨hburst, hsteps⟩ := burst_of_awaiting he hready.1 hready.2.1 hready.2.2 now
        rw [hburst, hsteps]
        exact ⟨0, rfl, rfl⟩
    · rw [if_neg hstate, burst_of_not_running hstate, countedBurst?_of_rest he fun h => hstate h.1]
      exact ⟨0, rfl, rfl⟩

end Session

/-! ### Exact numbers of steps -/

namespace Pace

/-- The whole number of steps that `elapsed` nanoseconds allow, counted
in whole microseconds, with nothing cut off and no cap. -/
def exact (p : Pace) (elapsed : Nat) : Nat := elapsed / 1000 * p.opsPerMs.toNat / 1000

/-- No budget is more than the cap. -/
theorem budget_le_maxBurst (p : Pace) (elapsed : Nat) : p.budget elapsed ≤ p.maxBurst :=
  Nat.min_le_right _ _

/-- Whatever is cut off, the budget only gets smaller. -/
theorem budget_le_exact (p : Pace) (elapsed : Nat) : p.budget elapsed ≤ p.exact elapsed := by
  calc p.budget elapsed
      ≤ min (elapsed / 1000 % UInt64.size * p.opsPerMs.toNat) 0xFFFFFFFFFFFFFFFF / 1000 :=
        Nat.min_le_left _ _
    _ ≤ elapsed / 1000 % UInt64.size * p.opsPerMs.toNat / 1000 :=
        Nat.div_le_div_right (Nat.min_le_left _ _)
    _ ≤ p.exact elapsed := Nat.div_le_div_right (Nat.mul_le_mul_right _ (Nat.mod_le _ _))

/-- Cutting a stretch of time in two adds no step. -/
theorem exact_add_le (p : Pace) (a b : Nat) : p.exact a + p.exact b ≤ p.exact (a + b) := by
  -- Both divisions round down, so each part loses at least what the whole
  -- loses.
  have hmicros : a / 1000 + b / 1000 ≤ (a + b) / 1000 := by omega
  have hproduct := Nat.mul_le_mul_right p.opsPerMs.toNat hmicros
  rw [Nat.add_mul] at hproduct
  unfold exact
  omega

/-- The last of some times in order is not before the first. -/
theorem le_getLastD {now : Nat} {times : List Nat} (h : (now :: times).Pairwise (· ≤ ·)) :
    now ≤ times.getLastD now := by
  rcases List.mem_cons.mp (List.getLastD_mem_cons) with hsame | hlater
  · exact Nat.le_of_eq hsame.symm
  · exact List.rel_of_pairwise_cons h hlater

/-- If the clock never goes back, the budgets of any number of bursts
together are no more than the time from the first to the last allows. -/
theorem allowance_le_exact (p : Pace) {last : Nat} {times : List Nat}
    (h : (last :: times).Pairwise (· ≤ ·)) :
    p.allowance last times ≤ p.exact (times.getLastD last - last) := by
  induction times generalizing last with
  | nil => exact Nat.zero_le _
  | cons now times ih =>
    have hlast : last ≤ now := List.rel_of_pairwise_cons h List.mem_cons_self
    have hnow := le_getLastD h.of_cons
    -- Each burst rounds down by itself. What they lose is gone, so the sum
    -- stays below the whole.
    calc p.allowance last (now :: times)
        = p.budget (now - last) + p.allowance now times := rfl
      _ ≤ p.exact (now - last) + p.exact (times.getLastD now - now) :=
          Nat.add_le_add (p.budget_le_exact _) (ih h.of_cons)
      _ ≤ p.exact ((now - last) + (times.getLastD now - now)) := p.exact_add_le _ _
      _ = p.exact ((now :: times).getLastD last - last) := by
          rw [List.getLastD_cons]
          congr 1
          omega

end Pace

/-! ### Steps of a run -/

namespace Session

/-- When the operation makes a burst. -/
def Operation.burstTime? : Operation → Option Nat
  | burst now => some now
  | _ => none

/-- The loop of a burst makes no more steps than its budget. -/
theorem advanceSteps_le (budget : Nat) (e : Engine) (t : Transcript) :
    advanceSteps budget e t ≤ budget := by
  induction budget generalizing e t with
  | zero => exact Nat.le_refl 0
  | succ budget ih =>
    unfold advanceSteps
    split
    · exact Nat.zero_le _
    · split
      · exact Nat.succ_pos _
      · exact Nat.succ_le_succ (ih _ _)

/-- Nor does a burst. -/
theorem burstSteps_le (s : Session) (budget : Nat) : s.burstSteps budget ≤ budget := by
  cases he : s.engine with
  | none =>
    simp only [burstSteps, he]
    exact Nat.zero_le _
  | some e =>
    simp only [burstSteps, he]
    generalize (if s.stopRequested then e.stop else e) = e'
    split
    · exact Nat.zero_le _
    · exact advanceSteps_le _ _ _

/-- Nor does a burst of which only the time is known. -/
theorem stepsDuring_burst_le (s : Session) (now : Nat) :
    s.stepsDuring [.burst now] ≤ s.pace.budget (now - s.lastBurst) := by
  rw [stepsDuring_burst]
  split
  · exact s.burstSteps_le _
  · exact Nat.zero_le _

/-- The steps of some operations are those of the first, and then those
of the others. -/
theorem stepsDuring_cons (s : Session) (op : Operation) (ops : List Operation) :
    s.stepsDuring (op :: ops) = s.stepsDuring [op] + (op.apply s).stepsDuring ops := rfl

section Rest

variable {s : Session} {op : Operation} {ops : List Operation}

/-- A session at rest stays so until a run is started. -/
theorem not_isRunning_apply (h : ¬ s.state.isRunning) (hop : ¬ op.Loads) :
    ¬ (op.apply s).state.isRunning := by
  rw [Operation.apply_of_not_loads hop]
  cases op with
  | run mode now load =>
    show ¬ (s.stop [now]).state.isRunning
    rwa [stop_of_not_running h]
  | burst now =>
    show ¬ (s.burst now).state.isRunning
    rwa [burst_of_not_running h]
  | requestStop =>
    show ¬ s.requestStop.state.isRunning
    rwa [requestStop_of_not_running h]
  | stop now later =>
    show ¬ (s.stop (now :: later)).state.isRunning
    rwa [stop_of_not_running h]
  | offer text => exact h

/-- It makes no step. -/
theorem stepsDuring_of_not_running (h : ¬ s.state.isRunning) (hops : ∀ op ∈ ops, ¬ op.Loads) :
    s.stepsDuring ops = 0 := by
  induction ops generalizing s with
  | nil => rfl
  | cons op ops ih =>
    have hop := hops op List.mem_cons_self
    have hrest : (op.apply s).stepsDuring ops = 0 :=
      ih (not_isRunning_apply h hop) fun op hmem => hops op (List.mem_cons_of_mem _ hmem)
    have hnone : s.stepsDuring [op] = 0 := by
      by_cases hburst : ∃ now, op = .burst now
      · obtain ⟨now, rfl⟩ := hburst
        rw [stepsDuring_burst, if_neg h]
      · exact count_step_of_not_burst (fun now heq => hburst ⟨now, heq⟩) s
    rw [stepsDuring_cons, hnone, hrest]

/-- The steps of a run are within the budgets of its bursts. -/
theorem Loaded.stepsDuring_le_allowance (h : s.Loaded) (hops : ∀ op ∈ ops, ¬ op.Loads) :
    s.stepsDuring ops ≤ s.pace.allowance s.lastBurst (ops.filterMap Operation.burstTime?) := by
  induction ops generalizing s with
  | nil => exact Nat.zero_le _
  | cons op ops ih =>
    have hop := hops op List.mem_cons_self
    have hrest : ∀ op ∈ ops, ¬ op.Loads := fun op hmem => hops op (List.mem_cons_of_mem _ hmem)
    have hlater := ih (h.apply op hop) hrest
    rw [s.pace_apply] at hlater
    -- After a stop the time of the last burst is another, but no step is made any more.
    have hstopped : ∀ now later, op.apply s = s.stop (now :: later) →
        (op.apply s).stepsDuring ops = 0 := by
      intro now later hstop
      rw [hstop]
      exact stepsDuring_of_not_running (h.not_isRunning_stop now later) hrest
    rw [stepsDuring_cons]
    cases op with
    | burst now => exact Nat.add_le_add (s.stepsDuring_burst_le now) hlater
    | requestStop =>
      have hsame : s.requestStop.lastBurst = s.lastBurst := by
        unfold requestStop
        split <;> rfl
      rw [show s.stepsDuring [.requestStop] = 0 from rfl, Nat.zero_add]
      rwa [show (Operation.requestStop.apply s).lastBurst = s.lastBurst from hsame] at hlater
    | offer text =>
      rw [show s.stepsDuring [.offer text] = 0 from rfl, Nat.zero_add]
      exact hlater
    | stop now later =>
      rw [hstopped now later rfl]
      exact Nat.le_trans (Nat.le_of_eq (count_step_of_not_burst (by simp) s)) (Nat.zero_le _)
    | run mode now load =>
      rw [hstopped now [] (Operation.apply_of_not_loads hop s)]
      exact Nat.le_trans (Nat.le_of_eq (count_step_of_not_burst (by simp) s)) (Nat.zero_le _)

end Rest

end Session

/-- No run outruns the clock. A burst of any session, in whatever state
and at whatever time, is worked out in words without a trap, counts its
steps right and makes at most as many as the pace has for one burst.
Start a run on any session, and make any operations that do not start
another. If the times of its bursts never go back from the time of the
start, then all of them together make no more steps than the pace allows
for the whole microseconds from the start to the last burst, in exact
integers. -/
theorem run_keeps_pace (s : Session) (mode : InputMode) (start : Nat) (engine : Engine)
    (ops : List Session.Operation) (hops : ∀ op ∈ ops, ¬ op.Loads)
    (htimes : (start :: ops.filterMap Session.Operation.burstTime?).Pairwise (· ≤ ·)) :
    (∀ (s' : Session) (now : Nat), s'.pace = s.pace →
      ∃ executed, s'.countedBurst? now = some (executed, s'.burst now) ∧
        executed.toNat = s'.stepsDuring [.burst now] ∧
        executed.toNat ≤ s.pace.opsPerMs.toNat * s.pace.burstMultiplier.toNat) ∧
    (s.run mode start (.ok engine)).2.stepsDuring ops
      ≤ ((ops.filterMap Session.Operation.burstTime?).getLastD start - start) / 1000
        * s.pace.opsPerMs.toNat / 1000 := by
  refine ⟨fun s' now hpace => ?_, ?_⟩
  · obtain ⟨executed, hburst, hsteps⟩ := s'.exists_countedBurst? now
    refine ⟨executed, hburst, hsteps, ?_⟩
    rw [hsteps, ← hpace]
    exact Nat.le_trans (s'.stepsDuring_burst_le now) (s'.pace.budget_le_maxBurst _)
  · have hbegun := s.run_eq_begun mode start engine
    have hsteps := (s.loaded_run mode start engine).stepsDuring_le_allowance hops
    rw [hbegun] at hsteps ⊢
    exact Nat.le_trans hsteps (s.pace.allowance_le_exact htimes)

/-- A loop that never ends. -/
def spinning : Engine := .brainfuck (.load #[.increment, .jumpForward 2, .jumpBack 1])

/-- It makes every step that the clock allows: 30 in the first burst and
five in the second. -/
theorem spinning_run_keeps_pace :
    (∀ op ∈ ([.burst 3001000, .offer "x", .burst 3501999] : List Session.Operation), ¬ op.Loads) ∧
    [1000, 3001000, 3501999].Pairwise (· ≤ ·) ∧
    (((Session.new ⟨10, 16⟩).run .interactive 1000 (.ok spinning)).2).stepsDuring
      [.burst 3001000, .offer "x", .burst 3501999] = 35 ∧
    (((Session.new ⟨10, 16⟩).run .interactive 1000 (.ok spinning)).2).stepsDuring
      [.burst 3001000, .offer "x", .burst 3501999] ≤ (3501999 - 1000) / 1000 * 10 / 1000 := by
  have hops : ∀ op ∈ ([.burst 3001000, .offer "x", .burst 3501999] : List Session.Operation),
      ¬ op.Loads := by
    simp [Session.Operation.Loads]
  have htimes : [1000, 3001000, 3501999].Pairwise (· ≤ ·) := by decide
  exact ⟨hops, htimes, by decide +kernel,
    (run_keeps_pace (.new ⟨10, 16⟩) .interactive 1000 spinning _ hops htimes).2⟩

end EsoHost
