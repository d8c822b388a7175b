import EbpfMemleak.Monitoring

/-!
# EbpfMemleak.Output

**What the tracer prints.** The monitoring goroutine prints line by line and can be stopped
between any two lines: by the end of `main`, which ends the process, or by a panic. The output
is that of whole passes and of the one that is being made (`Tracer.Printed`).

A pass prints the selected stacks only, from what it read of `combined_allocs`. The lists it
collects from `allocs` do not show: without them the tracer does the same
(`step_forgetAllocs`).
-/

namespace EbpfMemleak

/-! ### The output -/

section Steps

variable (heap : ContainerHeap) (linking : Linking) (pid : GoInt) (nTopStacks : Int)

/-- The whole text of a pass that was made. -/
def IsPass (moves : List Move) (text : List String) : Prop :=
  ∃ alive inputs report, Move.monitor alive inputs ∈ moves ∧
    reportPass heap nTopStacks inputs.combined inputs.allocs = some report ∧
    text = readingText :: passText inputs report

/-- The output is that of whole passes and of the one that is being made. -/
def Tracer.Printed (moves : List Move) (t : Tracer) : Prop :=
  ∃ (passes : List (List String)) (part : List String),
    (∀ text ∈ passes, IsPass heap nTopStacks moves text) ∧ t.output = passes.flatten ++ part ∧
    match t.monitor with
    | .checking | .done => part = []
    | .reading | .panicking => part = [readingText]
    | .printing lines => IsPass heap nTopStacks moves (part ++ lines)

variable {heap nTopStacks} {moves : List Move} {t : Tracer}

theorem IsPass.after {text : List String} (h : IsPass heap nTopStacks moves text)
    (moves' : List Move) : IsPass heap nTopStacks (moves ++ moves') text := by
  obtain ⟨alive, inputs, report, hmem, hreport, htext⟩ := h
  exact ⟨alive, inputs, report, List.mem_append_left _ hmem, hreport, htext⟩

/-- More moves, and the output and the monitoring goroutine as they were. -/
theorem Tracer.Printed.after (h : t.Printed heap nTopStacks moves) (moves' : List Move)
    {t' : Tracer} (houtput : t'.output = t.output) (hmonitor : t'.monitor = t.monitor) :
    t'.Printed heap nTopStacks (moves ++ moves') := by
  obtain ⟨passes, part, hpasses, hout, hpart⟩ := h
  refine ⟨passes, part, fun text htext => (hpasses text htext).after moves',
    houtput.trans hout, ?_⟩
  rw [hmonitor]
  revert hpart
  cases t.monitor with
  | printing lines => exact fun hpart => IsPass.after hpart moves'
  | _ => exact id

/-- A step of the monitoring goroutine. -/
theorem Tracer.Printed.monitorStep (h : t.Printed heap nTopStacks moves) (alive : Bool)
    (inputs : PassInputs) :
    (t.monitorStep heap pid nTopStacks alive inputs).Printed heap nTopStacks
      (moves ++ [.monitor alive inputs]) := by
  have hsame := @Tracer.Printed.after _ _ _ _ h [.monitor alive inputs]
  obtain ⟨main, monitor, cancelled, links, attached, output⟩ := t
  obtain ⟨passes, part, hpasses, hout, hpart⟩ := h
  have hpasses' : ∀ text ∈ passes,
      IsPass heap nTopStacks (moves ++ [.monitor alive inputs]) text :=
    fun text htext => (hpasses text htext).after _
  dsimp only at hout hpart
  cases monitor with
  | checking =>
      subst hpart
      unfold Tracer.monitorStep
      dsimp only
      split
      case isTrue => exact ⟨passes, [readingText], hpasses', by simp [hout], rfl⟩
      case isFalse => exact ⟨passes, [], hpasses', hout, rfl⟩
  | reading =>
      unfold Tracer.monitorStep
      dsimp only
      split
      case h_1 => exact ⟨passes, part, hpasses', hout, hpart⟩
      case h_2 report hreport =>
        subst hpart
        exact ⟨passes, [readingText], hpasses', hout, alive, inputs, report, by simp, hreport, rfl⟩
  | printing lines =>
      cases lines with
      | nil =>
          -- the last line has been printed
          refine ⟨passes ++ [part], [], fun text htext => ?_, by simp [Tracer.monitorStep, hout],
            rfl⟩
          rcases List.mem_append.mp htext with hold | hnew
          · exact hpasses' text hold
          · rw [List.mem_singleton.mp hnew, ← List.append_nil part]
            exact IsPass.after hpart _
      | cons line lines =>
          refine ⟨passes, part ++ [line], hpasses', by simp [Tracer.monitorStep, hout], ?_⟩
          have hnext := IsPass.after hpart [.monitor alive inputs]
          simpa [Tracer.monitorStep] using hnext
  | done => exact hsame rfl rfl
  | panicking => exact hsame rfl rfl

/-- `Run` prints nothing. -/
theorem mainStep_prints_nothing (t : Tracer) :
    (t.mainStep linking).output = t.output ∧ (t.mainStep linking).monitor = t.monitor := by
  unfold Tracer.mainStep
  split
  · split <;> exact ⟨rfl, rfl⟩
  · exact ⟨rfl, rfl⟩
  · exact ⟨rfl, rfl⟩
  · split <;> exact ⟨rfl, rfl⟩
  all_goals exact ⟨rfl, rfl⟩

/-- A step of the tracer. -/
theorem Tracer.Printed.step (h : t.Printed heap nTopStacks moves) (move : Move) :
    (t.step heap linking pid nTopStacks move).Printed heap nTopStacks (moves ++ [move]) := by
  unfold Tracer.step
  split
  case h_3 => exact h.monitorStep pid _ _
  case h_4 =>
    obtain ⟨houtput, hmonitor⟩ := mainStep_prints_nothing linking t
    exact h.after _ houtput hmonitor
  all_goals exact h.after _ rfl rfl

theorem Tracer.Printed.foldl (h : t.Printed heap nTopStacks moves) (moves' : List Move) :
    (moves'.foldl (Tracer.step heap linking pid nTopStacks) t).Printed heap nTopStacks
      (moves ++ moves') := by
  induction moves' generalizing t moves with
  | nil => simpa using h
  | cons move moves' ih => simpa using ih (h.step linking pid move)

end Steps

/-! ### `allocs` -/

section Forget

variable (heap : ContainerHeap) (linking : Linking) (pid : GoInt) (nTopStacks : Int)

/-- A move that finds `allocs` empty. -/
def Move.forgetAllocs : Move → Move
  | .signal => .signal
  | .monitor alive inputs => .monitor alive { inputs with allocs := [] }
  | .main => .main

/-- Neither the stacks of a report nor a panic depend on `allocs`. -/
theorem monitorStep_forgetAllocs (t : Tracer) (alive : Bool) (inputs : PassInputs) :
    t.monitorStep heap pid nTopStacks alive { inputs with allocs := [] } =
      t.monitorStep heap pid nTopStacks alive inputs := by
  unfold Tracer.monitorStep
  cases t.monitor with
  | checking => rfl
  | reading =>
      unfold reportPass
      dsimp only
      cases selectTop heap nTopStacks inputs.combined <;> rfl
  | printing lines => cases lines <;> rfl
  | done => rfl
  | panicking => rfl

/-- **The tracer does not act on `allocs`.** -/
theorem step_forgetAllocs (t : Tracer) (move : Move) :
    t.step heap linking pid nTopStacks move.forgetAllocs =
      t.step heap linking pid nTopStacks move := by
  cases move with
  | signal => rfl
  | main => rfl
  | monitor alive inputs =>
      unfold Tracer.step Move.forgetAllocs
      cases t.main with
      | crashed => rfl
      | _ => exact monitorStep_forgetAllocs heap pid nTopStacks t alive inputs

theorem foldl_forgetAllocs (t : Tracer) (moves : List Move) :
    (moves.map Move.forgetAllocs).foldl (Tracer.step heap linking pid nTopStacks) t =
      moves.foldl (Tracer.step heap linking pid nTopStacks) t := by
  induction moves generalizing t with
  | nil => rfl
  | cons move moves ih =>
      rw [List.map_cons, List.foldl_cons, List.foldl_cons, step_forgetAllocs, ih]

end Forget

/-! ### The passes -/

/-- What a pass shows: the greatest totals of what it read, in descending order, a line for
each stack and, if there is a trace, one for each frame. -/
structure Shows (nTopStacks : Int) (inputs : PassInputs) (shown : List StackInfo)
    (text : List String) : Prop where
  top : TopN.IsTop StackInfo.total nTopStacks.toNat
    ↑(positive (inputs.combined.map decodeEntry)) ↑shown
  sorted : (shown.map StackInfo.total).Pairwise (· ≥ ·)
  text : text = readingText :: ("[" ++ inputs.now ++ "] Top " ++ toString shown.length ++
      " stacks with outstanding allocations:") ::
    (shown.flatMap (stackText inputs) ++ ["==========================="])

theorem IsPass.shows {heap : ContainerHeap} {n : Int} {moves : List Move} {text : List String}
    (h : IsPass heap n moves text) (hn : 1 ≤ n) : ∃ alive inputs shown,
      Move.monitor alive inputs ∈ moves ∧ Shows n inputs shown text := by
  obtain ⟨alive, inputs, report, hmem, hreport, htext⟩ := h
  obtain ⟨top, hselect, htop, hsorted⟩ := selectTop_spec heap hn inputs.combined
  rw [reportPass, hselect] at hreport
  obtain rfl := Option.some.inj hreport
  exact ⟨alive, inputs, top, hmem, htop, hsorted, htext⟩

section Start

variable {F : Flags} {answers : Loading} {fs : FileSystem} {linking : Linking} {g : Globals}
  {t₀ : Tracer}

end Start

/-- One stack and no trace for it, and a signal before the last line is out. -/
def untracedPass : PassInputs where
  combined := [(3, .ofBits .little (2 ^ 40 + 100))]
  allocs := []
  now := "2025-01-01T00:00:00Z"
  stackFrames _ := .error "lookup: key does not exist"

end EbpfMemleak
