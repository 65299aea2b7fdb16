import EsoHost.Proofs.Piet.Footing

/-!
# `EsoHost.Proofs.Piet.Slide`: a slide decides the walk through white

A walk through white goes on for ever if it never reaches color, and
nothing in it counts down. `slide` stops it as soon as a stance comes up
again. `slide_decides_walk` shows that this is soon enough, and never
too soon.

* `Rounds` is the loop of a slide without a bound on its rounds, and
  `exists_rounds_slide` says in how many rounds it ends: a grid has
  eight stances for each codel, and one more round meets the first that
  comes up again.
* `Stance.Arrives` says where the unbounded walk first leaves white.
  `Stance.Slides.arrives_iff` and `Stance.Slides.trapped_iff`: a slide
  ends on color there, and it is trapped exactly if the walk never
  reaches color.
* `Machine.Crossed` is what this means for a machine.
-/

set_option autoImplicit false

namespace EsoHost.Piet

/-! ### The loop -/

/-- From `s`, when the stances in `seen` were taken before, the loop
ends after `n` rounds with `l`. A round looks whether the stance was
taken before, and if not makes a stride. -/
inductive Rounds (g : Grid) : (seen : List Stance) → Stance → (n : Nat) → Landing → Prop where
  | again {seen : List Stance} {s : Stance} (old : s ∈ seen) : Rounds g seen s 1 (.trapped s)
  | landed {seen : List Stance} {s s' : Stance} (new : s ∉ seen)
      (stride : s.stride g = .landed s') : Rounds g seen s 1 (.colored s')
  | on {seen : List Stance} {s s' : Stance} {n : Nat} {l : Landing} (new : s ∉ seen)
      (stride : s.stride g = .on s') (rest : Rounds g (s :: seen) s' n l) :
      Rounds g seen s (n + 1) l

section Rounds

variable {g : Grid} {s : Stance} {seen : List Stance} {l l' : Landing} {n n' : Nat}

/-- The loop ends in one way. -/
theorem Rounds.unique (h : Rounds g seen s n l) (h' : Rounds g seen s n' l') : n = n' ∧ l = l' := by
  induction h generalizing n' with
  | again old =>
    cases h' with
    | again _ => exact ⟨rfl, rfl⟩
    | landed new _ => exact absurd old new
    | on new _ _ => exact absurd old new
  | landed new stride =>
    cases h' with
    | again old => exact absurd old new
    | landed _ stride' =>
      rw [stride] at stride'
      cases stride'
      exact ⟨rfl, rfl⟩
    | on _ stride' _ =>
      rw [stride] at stride'
      cases stride'
  | on new stride _ ih =>
    cases h' with
    | again old => exact absurd old new
    | landed _ stride' =>
      rw [stride] at stride'
      cases stride'
    | on _ stride' rest' =>
      rw [stride] at stride'
      cases stride'
      obtain ⟨rfl, rfl⟩ := ih rest'
      exact ⟨rfl, rfl⟩

/-- A bounded walk that ends before its strides do makes one round for
each of them at most. -/
theorem exists_rounds_of_strictSlideFrom {strides : Nat}
    (h : strictSlideFrom g strides seen s = some l) : ∃ n ≤ strides, Rounds g seen s n l := by
  induction strides generalizing seen s with
  | zero => cases h
  | succ strides ih =>
    unfold strictSlideFrom at h
    split at h
    · rename_i old
      cases h
      exact ⟨1, by omega, .again old⟩
    · rename_i new
      -- A stride finds all that it looks up, so the bound is the only difference.
      rw [Stance.strictStride_eq] at h
      cases hstride : s.stride g with
      | landed s' =>
        rw [hstride] at h
        cases h
        exact ⟨1, by omega, .landed new hstride⟩
      | on s' =>
        rw [hstride] at h
        obtain ⟨n, hn, hrest⟩ := ih h
        exact ⟨n + 1, by omega, .on new hstride hrest⟩

/-- The loop ends, with what `slide` finds. -/
theorem exists_rounds_slide (h : g.IsWhite s.codel) :
    ∃ n ≤ 8 * (g.width * g.height) + 1, Rounds g [] s n (slide g s) :=
  exists_rounds_of_strictSlideFrom (strictSlide_eq h)

end Rounds

/-! ### Where the walk leads -/

namespace Stance

/-- The walk from `s` comes to its first codel that is not white, and
takes the stance `s'` there. -/
def Arrives (g : Grid) (s s' : Stance) : Prop :=
  ∃ n, s.walk g n = s' ∧ ¬ g.IsWhite s'.codel ∧ ∀ k < n, g.IsWhite (s.walk g k).codel

section Arrives

variable {g : Grid} {s s' : Stance} {l : Landing}

/-- A slide ends on color exactly where the walk first leaves white. -/
theorem Slides.arrives_iff (h : Slides g s l) : s.Arrives g s' ↔ l = .colored s' := by
  cases h with
  | colored n white color =>
    constructor
    · rintro ⟨n', rfl, hne, hwhite⟩
      -- Both are the first codel of the walk that is not white.
      rcases Nat.lt_trichotomy n n' with hlt | rfl | hlt
      · exact absurd (hwhite n hlt) color.not_isWhite
      · rfl
      · exact absurd (white n' hlt) hne
    · intro heq
      cases heq
      exact ⟨n, rfl, color.not_isWhite, white⟩
  | trapped n white fresh again =>
    constructor
    · -- From the stance that comes up again on, the walk goes round for ever.
      rintro ⟨n', rfl, hne, -⟩
      exact absurd (isWhite_walk_of_repeat white again n') hne
    · intro heq
      cases heq

/-- A slide is trapped exactly if the walk never reaches color. -/
theorem Slides.trapped_iff (h : Slides g s l) :
    (∃ s', l = .trapped s') ↔ ∀ n, ¬ g.IsColored (s.walk g n).codel := by
  cases h with
  | colored n white color =>
    constructor
    · rintro ⟨s', heq⟩
      cases heq
    · intro hnever
      exact absurd color (hnever n)
  | trapped n white fresh again =>
    refine ⟨fun _ n' hcolor => ?_, fun _ => ⟨_, rfl⟩⟩
    exact hcolor.not_isWhite (isWhite_walk_of_repeat white again n')

end Arrives

end Stance

/-! ### Machines -/

/-- What a step from `m` and `t` to `m'` and `t'` has done that was to
walk through white from `s`. -/
structure Machine.Crossed (m : Machine) (g : Grid) (s : Stance) (t : Transcript) (m' : Machine)
    (t' : Transcript) : Prop where
  /-- The machine goes on, or it is blocked. -/
  status_eq : m'.status = .running ∨ m'.status = .halted .blocked
  /-- It goes on from the stance `s'` exactly if the walk first leaves
  white there. -/
  running_iff : ∀ s', m'.status = .running ∧ m'.pointer.toStance = s' ↔ s.Arrives g s'
  /-- It is blocked exactly if the walk never reaches color. -/
  blocked_iff : m'.status = .halted .blocked ↔ ∀ n, ¬ g.IsColored (s.walk g n).codel
  /-- The pointer names the block of its codel. -/
  block_eq : m'.program.blockAt? m'.pointer.codel = some m'.pointer.block
  stack_eq : m'.stack = m.stack
  lastInstruction_eq : m'.lastInstruction = none
  transcript_eq : t' = t

section Machine

variable {g : Grid} {s : Stance} {m : Machine}

/-- A step that slides from `s` crosses white. -/
theorem Machine.crossed_step (hs : g.IsWhite s.codel) (hm : m.program = .compile g)
    (hlive : ¬ m.status.isHalted) (hmove : m.program.move m.pointer = .slide s) (t : Transcript) :
    m.Crossed g s t (m.step t).1 (m.step t).2 := by
  have hslides := Stance.slides_slide hs
  have hgrid : m.program.grid = g := by rw [hm]; rfl
  rw [step_of_slide hlive hmove, hgrid]
  -- Of the landing only what `Slides` says is used.
  generalize slide g s = l at hslides ⊢
  have hcount : ({ m with steps := m.steps + 1 } : Machine).program = .compile g := hm
  obtain ⟨block, hblock, hthere⟩ := exists_moveTo hcount hslides.open
  rw [← hm] at hblock
  cases l with
  | colored s' =>
    simp only [land, Landing.stance] at hthere hblock ⊢
    rw [hthere]
    refine ⟨Or.inl rfl, fun s'' => ?_, ?_, hblock, rfl, rfl, rfl⟩
    · rw [hslides.arrives_iff]
      simp
    · rw [← hslides.trapped_iff]
      simp
  | trapped s' =>
    simp only [land, Landing.stance] at hthere hblock ⊢
    rw [hthere]
    refine ⟨Or.inr rfl, fun s'' => ?_, ?_, hblock, rfl, rfl, rfl⟩
    · rw [hslides.arrives_iff]
      simp
    · rw [← hslides.trapped_iff]
      simp

/-- A pointer that stands on white is about to slide. -/
theorem Program.exists_move_of_isWhite (hs : g.IsWhite s.codel) :
    ∃ block, (compile g).blockAt? s.codel = some block ∧
      (compile g).move ⟨s, block⟩ = .slide s := by
  obtain ⟨block, hblock⟩ := Partition.exists_blockAt?_iff.mpr hs.open
  obtain ⟨b, hb, hregion⟩ := Partition.exists_block_of_blockAt? hblock
  have hb : (compile g).blocks[block]? = some b := hb
  have hwhite : b.color = .white := Option.some.inj (hregion.color_eq.symm.trans hs)
  exact ⟨block, hblock, by simp [move, hb, hwhite]⟩

end Machine

/-- A slide decides the walk through white, from every white codel and
under every heading. Its loop ends, after at most one round more than
the grid has stances; and a machine that slides goes on where the walk
first leaves white, or is blocked if the walk never reaches color. Stack
and transcript stay as they are, and the last instruction is cleared. -/
theorem slide_decides_walk (g : Grid) (s : Stance) (hs : g.IsWhite s.codel) :
    (∃ n ≤ 8 * (g.width * g.height) + 1, Rounds g [] s n (slide g s) ∧
      ∀ n' l, Rounds g [] s n' l → n' = n ∧ l = slide g s) ∧
    (∃ block, (Program.compile g).blockAt? s.codel = some block ∧
      (Program.compile g).move ⟨s, block⟩ = .slide s) ∧
    ∀ (m : Machine) (t : Transcript), m.program = .compile g → ¬ m.status.isHalted →
      m.program.move m.pointer = .slide s → m.Crossed g s t (m.step t).1 (m.step t).2 := by
  refine ⟨?_, Program.exists_move_of_isWhite hs, fun m t hm hlive hmove => ?_⟩
  · -- Another run of the loop makes the same rounds.
    obtain ⟨n, hn, hrounds⟩ := exists_rounds_slide hs
    exact ⟨n, hn, hrounds, fun n' l hrounds' => hrounds'.unique hrounds⟩
  · exact Machine.crossed_step hs hm hlive hmove t

/-- From the white codel at the top of `crossing`, facing the border,
the pointer turns to the right and reaches red. -/
theorem slide_decides_walk_in_crossing :
    crossing.IsWhite ⟨1, 0⟩ ∧
    ∃ m : Machine, m.program = .compile crossing ∧ ¬ m.status.isHalted ∧
      m.program.move m.pointer = .slide ⟨⟨1, 0⟩, ⟨.up, .left⟩⟩ ∧
      ∀ t, (m.step t).1.status = .running ∧
        (m.step t).1.pointer.toStance = ⟨⟨2, 0⟩, ⟨.right, .right⟩⟩ := by
  have hwhite : crossing.IsWhite ⟨1, 0⟩ := rfl
  have harrives : Stance.Arrives crossing ⟨⟨1, 0⟩, ⟨.up, .left⟩⟩ ⟨⟨2, 0⟩, ⟨.right, .right⟩⟩ := by
    -- One turn at the border, then one codel to the right.
    refine ⟨2, by decide, by unfold Grid.IsWhite; decide, by unfold Grid.IsWhite; decide⟩
  obtain ⟨-, ⟨block, -, hmove⟩, hcrossed⟩ :=
    slide_decides_walk crossing ⟨⟨1, 0⟩, ⟨.up, .left⟩⟩ hwhite
  let m : Machine :=
    { program := .compile crossing, policy := .skip, pointer := ⟨⟨⟨1, 0⟩, ⟨.up, .left⟩⟩, block⟩
      stack := .empty, status := .running, lastInstruction := none, steps := 0 }
  have hlive : ¬ m.status.isHalted := by simp [m, Status.isHalted]
  exact ⟨hwhite, m, rfl, hlive, hmove, fun t =>
    ((hcrossed m t rfl hlive hmove).running_iff _).mpr harrives⟩

end EsoHost.Piet
