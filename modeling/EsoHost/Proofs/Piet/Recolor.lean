import EsoHost.Proofs.Piet.Lockstep

/-!
# `EsoHost.Proofs.Piet.Recolor`: only color differences matter

A program means the same if all its colors are moved along their two
cycles by the same numbers of steps, with white and black left as they
are (`only_color_differences_matter`).

Compiling asks of colors only which are equal, which are white and
which are black. So any recoloring that respects these questions
(`Color.IsRecoloring`) leaves regions, their numbers and their exits
alone; `Program.compile_recolor` says so, going up through the flood,
the scan and the exit tables. Running asks one thing more, the
instruction between two colors, and there a recoloring has to be a
shift: `Instruction.between?_shift` is all of the cycle arithmetic.
-/

set_option autoImplicit false

namespace EsoHost.Piet

/-! ### Shifted colors -/

namespace Hue

/-- The next hue on the cycle. -/
def next : Hue → Hue
  | red => yellow
  | yellow => green
  | green => cyan
  | cyan => blue
  | blue => magenta
  | magenta => red

/-- The hue `steps` steps further on the cycle. -/
def advance (h : Hue) (steps : Nat) : Hue := Nat.repeat next steps h

/-- There are six hues. -/
theorem index_lt (h : Hue) : h.index < 6 := by
  cases h <;> decide

/-- A hue is known by its place on the cycle. -/
theorem index_inj {h h' : Hue} (heq : h.index = h'.index) : h = h' := by
  revert heq
  cases h <;> cases h' <;> decide

/-- The next hue has the next place. -/
theorem index_next (h : Hue) : h.next.index = (h.index + 1) % 6 := by
  cases h <;> rfl

/-- Places on the cycle count modulo six. -/
theorem index_advance (h : Hue) (steps : Nat) :
    (h.advance steps).index = (h.index + steps) % 6 := by
  induction steps with
  | zero =>
    show h.index = _
    have := h.index_lt
    omega
  | succ steps ih =>
    show (h.advance steps).next.index = _
    rw [index_next, ih]
    omega

end Hue

namespace Lightness

/-- The next lightness on the cycle. -/
def next : Lightness → Lightness
  | light => normal
  | normal => dark
  | dark => light

/-- The lightness `steps` steps further on the cycle. -/
def advance (l : Lightness) (steps : Nat) : Lightness := Nat.repeat next steps l

/-- There are three degrees of lightness. -/
theorem index_lt (l : Lightness) : l.index < 3 := by
  cases l <;> decide

/-- A lightness is known by its place on the cycle. -/
theorem index_inj {l l' : Lightness} (heq : l.index = l'.index) : l = l' := by
  revert heq
  cases l <;> cases l' <;> decide

/-- The next one has the next place. -/
theorem index_next (l : Lightness) : l.next.index = (l.index + 1) % 3 := by
  cases l <;> rfl

/-- Places on the cycle count modulo three. -/
theorem index_advance (l : Lightness) (steps : Nat) :
    (l.advance steps).index = (l.index + steps) % 3 := by
  induction steps with
  | zero =>
    show l.index = _
    have := l.index_lt
    omega
  | succ steps ih =>
    show (l.advance steps).next.index = _
    rw [index_next, ih]
    omega

end Lightness

/-- The color `hueSteps` and `lightnessSteps` steps further on the two
cycles. White and black lie on neither, and stay. -/
def Color.shift (hueSteps lightnessSteps : Nat) : Color → Color
  | chromatic hue lightness => chromatic (hue.advance hueSteps) (lightness.advance lightnessSteps)
  | white => white
  | black => black

section Shift

variable {hueSteps lightnessSteps : Nat}

/-- Two hues that advance alike stay as far apart. -/
theorem Hue.stepsTo_advance (h h' : Hue) (steps : Nat) :
    (h.advance steps).stepsTo (h'.advance steps) = h.stepsTo h' := by
  have := h.index_lt
  have := h'.index_lt
  -- Both places have moved on by the same steps, so their difference
  -- modulo six is what it was.
  simp only [stepsTo, index_advance]
  omega

/-- So do two degrees of lightness. -/
theorem Lightness.stepsTo_advance (l l' : Lightness) (steps : Nat) :
    (l.advance steps).stepsTo (l'.advance steps) = l.stepsTo l' := by
  have := l.index_lt
  have := l'.index_lt
  simp only [stepsTo, index_advance]
  omega

/-- The instruction between two colors depends on their difference
alone, around both cycles. -/
theorem Instruction.between?_shift (a b : Color) :
    between? (a.shift hueSteps lightnessSteps) (b.shift hueSteps lightnessSteps)
      = between? a b := by
  cases a with
  | white => rfl
  | black => rfl
  | chromatic hue lightness =>
    cases b with
    | white => rfl
    | black => rfl
    | chromatic hue' lightness' =>
      simp only [between?, Color.stepsTo?, Color.shift, Hue.stepsTo_advance,
        Lightness.stepsTo_advance]

/-- Different hues stay different. -/
theorem Hue.advance_inj {h h' : Hue} {steps : Nat} (heq : h.advance steps = h'.advance steps) :
    h = h' := by
  have hindex := congrArg index heq
  rw [index_advance, index_advance] at hindex
  have := h.index_lt
  have := h'.index_lt
  exact index_inj (by omega)

/-- And so do degrees of lightness. -/
theorem Lightness.advance_inj {l l' : Lightness} {steps : Nat}
    (heq : l.advance steps = l'.advance steps) : l = l' := by
  have hindex := congrArg index heq
  rw [index_advance, index_advance] at hindex
  have := l.index_lt
  have := l'.index_lt
  exact index_inj (by omega)

end Shift

/-! ### Recolored grids -/

/-- Different colors stay different, and white and black stay what they
are. -/
structure Color.IsRecoloring (f : Color → Color) : Prop where
  injective : Function.Injective f
  white_eq : f .white = .white
  black_eq : f .black = .black

/-- A shift is a recoloring. -/
theorem Color.isRecoloring_shift (hueSteps lightnessSteps : Nat) :
    IsRecoloring (shift hueSteps lightnessSteps) := by
  refine ⟨?_, rfl, rfl⟩
  intro a b hshift
  cases a with
  | white =>
    cases b with
    | white => rfl
    | _ => cases hshift
  | black =>
    cases b with
    | black => rfl
    | _ => cases hshift
  | chromatic hue lightness =>
    cases b with
    | chromatic hue' lightness' =>
      obtain ⟨hhue, hlightness⟩ := Color.chromatic.inj hshift
      rw [Hue.advance_inj hhue, Lightness.advance_inj hlightness]
    | _ => cases hshift

/-- The grid with every color changed by `f`. -/
def Grid.recolor (g : Grid) (f : Color → Color) : Grid where
  width := g.width
  height := g.height
  cells := g.cells.map f
  size_cells := by rw [Array.size_map, g.size_cells]
  width_pos := g.width_pos
  height_pos := g.height_pos

/-- The block with its color changed by `f`. -/
def Block.recolor (f : Color → Color) (b : Block) : Block := { b with color := f b.color }

/-- The partition with the colors of its blocks changed by `f`. -/
def Partition.recolor (f : Color → Color) (p : Partition) : Partition :=
  { p with blocks := p.blocks.map (Block.recolor f) }

namespace Color.IsRecoloring

variable {f : Color → Color} {color : Color} (hf : IsRecoloring f)

include hf

/-- No other color becomes white. -/
theorem eq_white_iff : f color = .white ↔ color = .white :=
  ⟨fun h => hf.injective (h.trans hf.white_eq.symm), fun h => h ▸ hf.white_eq⟩

/-- Nor black. -/
theorem eq_black_iff : f color = .black ↔ color = .black :=
  ⟨fun h => hf.injective (h.trans hf.black_eq.symm), fun h => h ▸ hf.black_eq⟩

end Color.IsRecoloring

section Recolor

variable {g : Grid} {f : Color → Color}

/-- Every codel has its color changed. -/
theorem Grid.get?_recolor (g : Grid) (f : Color → Color) (c : Codel) :
    (g.recolor f).get? c = (g.get? c).map f := by
  by_cases hin : g.Contains c
  · have hin' : (g.recolor f).Contains c := hin
    rw [Raster.get?, Raster.get?, dif_pos hin, dif_pos hin', Option.map_some]
    exact congrArg some (Array.getElem_map ..)
  · have hout : ¬ (g.recolor f).Contains c := hin
    rw [Raster.get?_eq_none.mpr hin, Raster.get?_eq_none.mpr hout, Option.map_none]

/-- Codels of one color are found again under the new one. -/
theorem Grid.get?_recolor_eq_some_iff (hf : Color.IsRecoloring f) {c : Codel} {color : Color} :
    (g.recolor f).get? c = some (f color) ↔ g.get? c = some color := by
  rw [get?_recolor, Option.map_eq_some_iff]
  constructor
  · rintro ⟨color', hcolor', heq⟩
    rw [hcolor', hf.injective heq]
  · intro hcolor
    exact ⟨color, hcolor, rfl⟩

/-- The same codels can be entered. -/
theorem Grid.open_recolor_iff (hf : Color.IsRecoloring f) {c : Codel} :
    (g.recolor f).Open c ↔ g.Open c := by
  unfold Open
  rw [get?_recolor]
  cases g.get? c with
  | none => simp
  | some color => simp [hf.eq_black_iff]

/-! ### Compiling -/

/-- A ring grows by comparing colors. -/
theorem nextRing_recolor (hf : Color.IsRecoloring f) (color : Color) (id : Nat)
    (ring : List Codel) (m : Membership) :
    nextRing (g.recolor f) (f color) id ring m = nextRing g color id ring m := by
  have hoffer : Ring.offer (g.recolor f) (f color) id = Ring.offer g color id := by
    funext s c
    simp only [Ring.offer, Grid.get?_recolor_eq_some_iff hf]
  show (ring.flatMap g.neighbours).foldl (Ring.offer (g.recolor f) (f color) id) (m, []) = _
  rw [hoffer]
  rfl

/-- The same codels are found, in the same order. -/
theorem flood_recolor (hf : Color.IsRecoloring f) (color : Color) (id : Nat)
    (ring : List Codel) (m : Membership) (found : Array Codel) :
    flood (g.recolor f) (f color) id ring m found = flood g color id ring m found := by
  fun_induction flood g color id ring m found with
  | case1 m found => exact flood_nil m found
  | case2 ring m found hring m' next hstep ih =>
    rw [flood_of_ne_nil hring, nextRing_recolor hf, hstep]
    exact ih

/-- The scan grows the same block from each codel. -/
theorem Partition.extend_recolor (hf : Color.IsRecoloring f) (p : Partition) (c : Codel) :
    extend (g.recolor f) (p.recolor f) c = (extend g p c).recolor f := by
  obtain ⟨hsame, hgrow⟩ | ⟨color, _, _, -, hfree, hcolor, hne, -⟩ := extend_cases g p c
  · rw [hsame]
    refine extend_of_not_free fun hopen => hgrow ?_
    exact (Grid.open_recolor_iff hf).mp hopen
  · have hcolor' : (g.recolor f).get? c = some (f color) :=
      (Grid.get?_recolor_eq_some_iff hf).mpr hcolor
    have hfree' : (p.recolor f).membership.IsFree c := hfree
    rw [extend_of_free hfree hcolor hne,
      extend_of_free hfree' hcolor' fun hblack => hne (hf.eq_black_iff.mp hblack)]
    simp [recolor, Block.recolor, flood_recolor hf]

/-- The whole scan. -/
theorem Partition.ofGrid_recolor (hf : Color.IsRecoloring f) (g : Grid) :
    ofGrid (g.recolor f) = (ofGrid g).recolor f := by
  have hstart : start (g.recolor f) = (start g).recolor f := by
    simp [start, recolor, Grid.recolor]
  show g.codels.foldl (extend (g.recolor f)) (start (g.recolor f)) = _
  rw [hstart]
  -- The scan goes through the same codels, and recoloring commutes with
  -- each of its steps.
  exact List.foldl_hom (recolor f) fun p c => extend_recolor hf p c

/-- An exit asks only whether the codel beyond is black. -/
theorem transition?_recolor (hf : Color.IsRecoloring f) (m : Membership) (b : Block)
    (h : Heading) :
    transition? (g.recolor f) m (b.recolor f) h = transition? g m b h := by
  unfold transition?
  refine congrArg (Option.bind _) (funext fun exit => ?_)
  refine congrArg (Option.bind _) (funext fun entry => ?_)
  rw [Grid.get?_recolor]
  cases g.get? entry with
  | none => rfl
  | some color =>
    show (if f color = .black then _ else _) = if color = .black then _ else _
    simp only [hf.eq_black_iff]

/-- The exits of a block lead where they led. -/
theorem exitTable_recolor (hf : Color.IsRecoloring f) (m : Membership) (b : Block) :
    exitTable (g.recolor f) m (b.recolor f) = exitTable g m b := by
  unfold exitTable
  rw [funext (transition?_recolor hf m b)]
  simp only [Block.recolor, hf.eq_white_iff]

/-- Compiling a recolored grid gives the same program, with the colors
of its blocks changed. -/
theorem Program.compile_recolor (hf : Color.IsRecoloring f) (g : Grid) :
    compile (g.recolor f) =
      { compile g with
        grid := g.recolor f
        blocks := (compile g).blocks.map (Block.recolor f) } := by
  have hexits : ((Partition.ofGrid g).blocks.map (Block.recolor f)).map
      (exitTable (g.recolor f) (Partition.ofGrid g).membership) = (compile g).exits := by
    rw [Array.map_map]
    exact congrArg (Array.map · _) (funext fun b => exitTable_recolor hf _ b)
  unfold compile
  rw [Partition.ofGrid_recolor hf]
  unfold assemble
  simp only [Partition.recolor]
  rw [hexits]
  rfl

/-! ### Running -/

/-- A stride only tells white, black and the other colors apart. -/
theorem Stance.stride_recolor (hf : Color.IsRecoloring f) (s : Stance) :
    s.stride (g.recolor f) = s.stride g := by
  unfold stride
  rw [show (g.recolor f).step s.codel s.heading.dp = g.step s.codel s.heading.dp from rfl]
  cases g.step s.codel s.heading.dp with
  | none => rfl
  | some ahead =>
    simp only [Grid.get?_recolor]
    cases g.get? ahead with
    | none => rfl
    | some color =>
      cases color with
      | white => simp only [Option.map_some, hf.white_eq]
      | black => simp only [Option.map_some, hf.black_eq]
      | chromatic hue lightness =>
        -- What is neither white nor black stays neither.
        cases hcolor : f (.chromatic hue lightness) with
        | white => exact absurd (hf.eq_white_iff.mp hcolor) (by simp)
        | black => exact absurd (hf.eq_black_iff.mp hcolor) (by simp)
        | chromatic hue' lightness' => simp only [Option.map_some, hcolor]

/-- So a slide ends where it did. -/
theorem slide_recolor (hf : Color.IsRecoloring f) (s : Stance) :
    slide (g.recolor f) s = slide g s := by
  have hfrom : ∀ (strides : Nat) (seen : List Stance) (s : Stance),
      slideFrom (g.recolor f) strides seen s = slideFrom g strides seen s := by
    intro strides
    induction strides with
    | zero =>
      intro seen s
      rfl
    | succ strides ih =>
      intro seen s
      simp only [slideFrom, Stance.stride_recolor hf, ih]
  exact hfrom _ [] s

/-- A recoloring that keeps instructions keeps moves. -/
theorem Program.alike_recolor (hf : Color.IsRecoloring f)
    (hbetween : ∀ a b, Instruction.between? (f a) (f b) = Instruction.between? a b) (g : Grid) :
    (compile g).Alike (compile (g.recolor f)) := by
  rw [compile_recolor hf]
  refine ⟨fun _ => rfl, ?_, fun _ start _ _ => slide_recolor hf start⟩
  intro q
  -- The exits are untouched. A move asks for the colors of two blocks
  -- besides, and for nothing else.
  have hexit : ∀ id h, exit? { compile g with
        grid := g.recolor f
        blocks := (compile g).blocks.map (Block.recolor f) } id h = (compile g).exit? id h :=
    fun _ _ => rfl
  simp only [move, hexit, Array.getElem?_map]
  cases (compile g).blocks[q.block]? with
  | none => rfl
  | some block =>
    simp only [Option.map_some, Block.recolor, hf.eq_white_iff]
    split
    · rfl
    · cases (compile g).exit? q.block q.heading with
      | none => rfl
      | some way =>
        obtain ⟨heading, t⟩ := way
        simp only []
        cases (compile g).blocks[t.target]? with
        | none => rfl
        | some target =>
          simp only [Option.map_some, Block.recolor, hbetween]
          rfl

end Recolor

/-- The grid with all its colors moved along their cycles. -/
def Grid.shift (g : Grid) (hueSteps lightnessSteps : Nat) : Grid :=
  g.recolor (Color.shift hueSteps lightnessSteps)

/-- Only color differences matter. If all colors of a grid are moved
along their cycles by the same steps, compiling gives blocks with the
same numbers and codels, the same membership and the same exits, and
the two programs run in step, from any transcript and under any
commands. -/
theorem only_color_differences_matter (g : Grid) (hueSteps lightnessSteps : Nat) :
    (Program.compile (g.shift hueSteps lightnessSteps)).blocks
        = (Program.compile g).blocks.map (Block.recolor (Color.shift hueSteps lightnessSteps)) ∧
      (Program.compile (g.shift hueSteps lightnessSteps)).membership
        = (Program.compile g).membership ∧
      (Program.compile (g.shift hueSteps lightnessSteps)).exits = (Program.compile g).exits ∧
      ∀ (policy : ExhaustedInput) (t : Transcript) (commands : List Command),
        InStep (Machine.afterCommands commands (.load (.compile g) policy, t))
          (Machine.afterCommands commands
            (.load (.compile (g.shift hueSteps lightnessSteps)) policy, t)) := by
  have hshift := Color.isRecoloring_shift hueSteps lightnessSteps
  have hcompile := Program.compile_recolor hshift g
  have halike := Program.alike_recolor hshift Instruction.between?_shift g
  refine ⟨?_, ?_, ?_, halike.inStep⟩
  · rw [Grid.shift, hcompile]
  · rw [Grid.shift, hcompile]
  · rw [Grid.shift, hcompile]

end EsoHost.Piet
