import EbpfMemleak.Loader
import EbpfMemleak.MapsFile
import EbpfMemleak.Report

/-!
# EbpfMemleak.Monitoring

**`Run`, from the attachments to the end of the tracer.** `newProbe` loads and attaches; then
three goroutines run side by side: one makes pass after pass as long as the traced process is
alive, one waits for a signal and cancels the context, and `Run` itself waits in a `select`
for either and closes the links. A schedule says who moves, what `isProcessAlive` answers and
what a pass gets to read, so it covers a signal in the middle of a pass and a process that
exits while the links are being closed. When a pass panics, the deferred
`close(processDone)` still runs before the program crashes, and `Run` may get to close links
in between.

The invariant is about the links: what is attached is what `Close` has still to go through
(`Tracer.Ok`). Its first failure ends the loop of `Close`, and the links behind it stay.
What has made `Run` leave its `select` is found in the moves (`ToldToEnd`).
-/

namespace EbpfMemleak

/-! ### Attaching and closing -/

/-- A link, by what it attaches. -/
abbrev Link := Hook × ProgramName

/-- The errors of `link.OpenExecutable`, of an attachment and of the `Close` of a link. -/
structure Linking where
  openExecutable : String → Option String
  attach : Link → Option String
  close : Link → Option String

/-- The name of a probe in its error message. -/
def ProgramName.label : ProgramName → String
  | .mallocEnter => "uprobe/malloc_enter"
  | .mallocExit => "uprobe/malloc_exit"
  | .freeEnter => "uprobe/free_enter uprobe"
  | .callocEnter => "uprobe/calloc_enter"
  | .callocExit => "uprobe/calloc_exit"
  | .reallocEnter => "uprobe/realloc_enter"
  | .reallocExit => "uprobe/realloc_exit"
  | .memleakKmalloc => "tracepoint/kmem/kmalloc"
  | .memleakKfree => "tracepoint/kmem/kfree"

/-- Makes the links in order and appends them, up to the first failure. -/
def attachAll (linking : Linking) (links : List (Option Link)) :
    List Link → List (Option Link) × Option (Link × String)
  | [] => (links, none)
  | hook :: hooks =>
      match linking.attach hook with
      | some err => (links, some (hook, err))
      | none => attachAll linking (links ++ [some hook]) hooks

/-- How `attachPrograms` ends: it returns an error or `nil`, with what is in `p.links`, or
calls `log.Fatalf`. -/
inductive Attaching
  | returned (links : List (Option Link)) (err : Option String)
  | fatal (message : String)

/-- `attachPrograms`. -/
def attachPrograms (fs : FileSystem) (linking : Linking) (pid : GoInt) : Attaching :=
  if 0 < pid.toInt then
    match getLibcPath fs pid.toInt with
    | .error err => .returned [] (some ("Failed to get libc path: " ++ err))
    | .ok libcPath =>
        match linking.openExecutable libcPath with
        | some err => .returned [] (some ("Failed to open libc: " ++ err))
        | none =>
            -- `make([]link.Link, 35)` makes 35 nil links, and `append` comes after them
            match attachAll linking (List.replicate 35 none) userHooks with
            | (_, some (hook, err)) =>
                .fatal ("Failed to attach " ++ hook.2.label ++ ": " ++ err)
            | (links, none) => .returned links none
  else
    match attachAll linking [] kernelHooks with
    | (links, some (_, err)) => .returned links (some err)
    | (links, none) => .returned links none

/-! ### The goroutines -/

/-- What a pass reads from the maps, the time, and what `getUserspaceStackTrace` or
`getKernelspaceStackTrace` answers about a stack. -/
structure PassInputs where
  combined : List (U64 × CombinedAllocInfoRaw)
  allocs : List (U64 × AllocInfoRaw)
  now : String
  stackFrames : U32 → Except String (List String)

/-- What a pass prints about a stack. Without a trace it goes on to the next one. -/
def stackText (inputs : PassInputs) (stack : StackInfo) : List String :=
  (toString stack.totalSize.toNat ++ " Bytes in " ++ toString stack.numberOfAllocs.toNat ++
      " allocations from stack") ::
    match inputs.stackFrames stack.stackId with
    | .error _ => []
    | .ok frames => frames.map ("    " ++ ·)

/-- What a pass prints before it reads the maps. -/
def readingText : String := "=== Reading combined allocs map entries ==="

/-- What it prints after it has read them. -/
def passText (inputs : PassInputs) (report : Report) : List String :=
  ("[" ++ inputs.now ++ "] Top " ++ toString report.topStacks.length ++
      " stacks with outstanding allocations:") ::
    (report.topStacks.flatMap (stackText inputs) ++ ["==========================="])

/-- Where the monitoring goroutine stands. -/
inductive Monitor
  /-- At the condition of the loop. -/
  | checking
  /-- Before the maps are read. -/
  | reading
  /-- With lines still to print. -/
  | printing (lines : List String)
  /-- Out of the loop. -/
  | done
  /-- A pass has panicked, and the program has yet to crash. -/
  | panicking
  deriving DecidableEq

/-- `processDone` is closed: its `close` is deferred, and runs in a panic too. -/
def Monitor.processDone : Monitor → Bool
  | .done | .panicking => true
  | .checking | .reading | .printing _ => false

/-- Where `Run` stands. -/
inductive Main
  /-- In the `select`. -/
  | waiting
  /-- In `Close`, with links still to go through. -/
  | closing (links : List (Option Link))
  /-- `Run` has returned. The goroutines go on until `main` has, too. -/
  | returned (err : Option String)
  /-- The panic of a pass has ended the program. -/
  | crashed

/-- The tracer. -/
structure Tracer where
  main : Main
  monitor : Monitor
  /-- `ctx.Done()` is closed. -/
  cancelled : Bool
  /-- `p.links`. -/
  links : List (Option Link)
  /-- The links that are attached. -/
  attached : List Link
  /-- What is printed. -/
  output : List String

/-- Who moves. -/
inductive Move
  /-- A SIGINT or a SIGTERM arrives. -/
  | signal
  /-- The monitoring goroutine. -/
  | monitor (alive : Bool) (inputs : PassInputs)
  /-- `Run`. -/
  | main

/-- The next step of the monitoring goroutine. -/
def Tracer.monitorStep (heap : ContainerHeap) (pid : GoInt) (nTopStacks : Int) (alive : Bool)
    (inputs : PassInputs) (t : Tracer) : Tracer :=
  match t.monitor with
  | .checking =>
      if (0 < pid.toInt ∧ alive = true) ∨ pid = 0 then
        { t with monitor := .reading, output := t.output ++ [readingText] }
      else { t with monitor := .done }
  | .reading =>
      match reportPass heap nTopStacks inputs.combined inputs.allocs with
      -- the deferred function closes `processDone`, and then the program crashes
      | none => { t with monitor := .panicking }
      | some report => { t with monitor := .printing (passText inputs report) }
  | .printing [] => { t with monitor := .checking }
  | .printing (line :: lines) =>
      { t with monitor := .printing lines, output := t.output ++ [line] }
  | .done => t
  | .panicking => { t with main := .crashed }

/-- The next step of `Run`. -/
def Tracer.mainStep (linking : Linking) (t : Tracer) : Tracer :=
  match t.main with
  | .waiting =>
      if t.cancelled = true ∨ t.monitor.processDone = true then
        { t with main := .closing t.links }
      else t
  | .closing [] => { t with main := .returned none }
  | .closing (none :: links) => { t with main := .closing links }
  | .closing (some l :: links) =>
      match linking.close l with
      | none => { t with main := .closing links, attached := t.attached.erase l }
      | some err => { t with main := .returned (some err) }
  | .returned _ | .crashed => t

/-- The next step of the tracer. -/
def Tracer.step (heap : ContainerHeap) (linking : Linking) (pid : GoInt) (nTopStacks : Int)
    (t : Tracer) (move : Move) : Tracer :=
  match t.main, move with
  | .crashed, _ => t
  | _, .signal => { t with cancelled := true }
  | _, .monitor alive inputs => t.monitorStep heap pid nTopStacks alive inputs
  | _, .main => t.mainStep linking

/-! ### The start -/

/-- How `newProbe` ends, and `Run` with it unless the goroutines are started. -/
inductive Started
  /-- `Run` returns the error. Nothing is closed. -/
  | failed (err : String) (attached : List Link)
  | fatal (message : String)
  | running (g : Globals) (t : Tracer)

/-- `Run` up to the `select`. -/
def Flags.start (F : Flags) (answers : Loading) (fs : FileSystem) (linking : Linking) : Started :=
  match F.load answers with
  | .error err => .failed err []
  | .ok g =>
      match attachPrograms fs linking F.pid with
      | .fatal message => .fatal message
      | .returned links (some err) => .failed err (links.filterMap id)
      | .returned links none =>
          .running g ⟨.waiting, .checking, false, links, links.filterMap id, []⟩

/-- Attaching appends all the links, or those before the first failure. -/
theorem attachAll_cases (linking : Linking) (links : List (Option Link)) (hooks : List Link) :
    attachAll linking links hooks = (links ++ hooks.map some, none) ∨
      ∃ made hook rest err, hooks = made ++ hook :: rest ∧
        attachAll linking links hooks = (links ++ made.map some, some (hook, err)) := by
  induction hooks generalizing links with
  | nil => exact Or.inl (by simp [attachAll])
  | cons hook hooks ih =>
      cases h : linking.attach hook with
      | some err => exact Or.inr ⟨[], hook, hooks, err, rfl, by simp [attachAll, h]⟩
      | none =>
          have hrest : attachAll linking links (hook :: hooks) =
              attachAll linking (links ++ [some hook]) hooks := by simp [attachAll, h]
          rw [hrest]
          rcases ih (links ++ [some hook]) with hall | ⟨made, hook', rest, err, rfl, hfail⟩
          · exact Or.inl (by simpa using hall)
          · exact Or.inr ⟨hook :: made, hook', rest, err, rfl, by simpa using hfail⟩

/-- **What `attachPrograms` leaves.** It returns an error with nothing attached, or with the
`kmalloc` tracepoint; else all the hooks are attached. -/
theorem attachPrograms_cases (fs : FileSystem) (linking : Linking) (pid : GoInt) :
    (∃ links err, attachPrograms fs linking pid = .returned links (some err) ∧
      (links.filterMap id = [] ∨
        (¬ 0 < pid.toInt ∧ links.filterMap id = kernelHooks.take 1))) ∨
    (∃ message, attachPrograms fs linking pid = .fatal message ∧ 0 < pid.toInt) ∨
    ∃ links, attachPrograms fs linking pid = .returned links none ∧
      links.filterMap id = hooksFor pid ∧ links.length ≤ 42 := by
  unfold attachPrograms hooksFor
  by_cases hpid : 0 < pid.toInt
  · simp only [if_pos hpid]
    split
    case h_1 => exact Or.inl ⟨[], _, rfl, Or.inl rfl⟩
    case h_2 =>
      split
      case h_1 => exact Or.inl ⟨[], _, rfl, Or.inl rfl⟩
      case h_2 =>
        rcases attachAll_cases linking (List.replicate 35 none) userHooks with
          hall | ⟨made, hook, rest, err, -, hfail⟩
        · rw [hall]
          exact Or.inr (Or.inr ⟨_, rfl, rfl, by decide⟩)
        · rw [hfail]
          exact Or.inr (Or.inl ⟨_, rfl, hpid⟩)
  · simp only [if_neg hpid]
    rcases attachAll_cases linking [] kernelHooks with hall | ⟨made, hook, rest, err, hsplit, hfail⟩
    · rw [hall]
      exact Or.inr (Or.inr ⟨_, rfl, rfl, by decide⟩)
    · rw [hfail]
      refine Or.inl ⟨_, _, rfl, ?_⟩
      -- of two hooks none or one comes before the one that failed
      match made, hsplit with
      | [], _ => exact Or.inl rfl
      | [first], hsplit =>
          obtain ⟨rfl, -⟩ := List.cons.inj hsplit
          exact Or.inr ⟨hpid, rfl⟩
      | _ :: _ :: made, hsplit =>
          have hlength := congrArg List.length hsplit
          simp [kernelHooks] at hlength

/-! ### The links -/

/-- What is attached is a rest of the hooks, and the links before it have been closed. -/
def ClosedUpTo (linking : Linking) (hooks attached : List Link) : Prop :=
  ∃ closed, hooks = closed ++ attached ∧ ∀ l ∈ closed, linking.close l = none

/-- What `Run` knows of the links, by where it stands. -/
def Main.Ok (linking : Linking) (hooks attached : List Link) : Main → Prop
  | .waiting => attached = hooks
  | .closing links => links.filterMap id = attached ∧ ClosedUpTo linking hooks attached
  | .returned none => attached = [] ∧ ClosedUpTo linking hooks attached
  | .returned (some err) => (∃ l rest, attached = l :: rest ∧ linking.close l = some err) ∧
      ClosedUpTo linking hooks attached
  | .crashed => ClosedUpTo linking hooks attached

/-- `Run` has returned or the program has crashed. -/
def Main.Ended : Main → Prop
  | .returned _ | .crashed => True
  | _ => False

/-- Wherever `Run` stands, it has closed the links in order. -/
theorem Main.Ok.closedUpTo {linking : Linking} {hooks attached : List Link} {main : Main}
    (h : main.Ok linking hooks attached) : ClosedUpTo linking hooks attached := by
  cases main with
  | waiting => exact ⟨[], h.symm, by simp⟩
  | closing links => exact h.2
  | returned err =>
      cases err with
      | none => exact h.2
      | some err => exact h.2
  | crashed => exact h

/-- The tracer after these moves. -/
structure Tracer.Ok (linking : Linking) (pid : GoInt) (moves : List Move) (t : Tracer) : Prop where
  links : t.links.filterMap id = hooksFor pid
  main : t.main.Ok linking (hooksFor pid) t.attached
  asked : t.main ≠ .waiting → t.cancelled = true ∨ t.monitor.processDone = true
  cancelled : t.cancelled = true → Move.signal ∈ moves
  signalled : Move.signal ∈ moves → t.cancelled = true ∨ t.main = .crashed
  silent : pid.toInt < 0 → t.output = [] ∧ (t.monitor = .checking ∨ t.monitor = .done)
  crashed : t.main = .crashed → t.monitor = .panicking

section Moves

variable {linking : Linking} {pid : GoInt} {nTopStacks : Int} {moves : List Move} {t : Tracer}

/-- A move that changes nothing. -/
theorem Tracer.Ok.idle (h : t.Ok linking pid moves) {move : Move}
    (hmove : move = .signal → t.main = .crashed) : t.Ok linking pid (moves ++ [move]) where
  links := h.links
  main := h.main
  asked := h.asked
  cancelled hc := List.mem_append_left _ (h.cancelled hc)
  signalled hs := by
    rcases List.mem_append.mp hs with hold | hnew
    · exact h.signalled hold
    · exact Or.inr (hmove (List.mem_singleton.mp hnew).symm)
  silent := h.silent
  crashed := h.crashed

/-- A signal. -/
theorem Tracer.Ok.signal (h : t.Ok linking pid moves) :
    ({ t with cancelled := true } : Tracer).Ok linking pid (moves ++ [.signal]) where
  links := h.links
  main := h.main
  asked _ := Or.inl rfl
  cancelled _ := List.mem_append_right _ (List.mem_singleton_self _)
  signalled _ := Or.inl rfl
  silent := h.silent
  crashed := h.crashed

/-- The monitoring goroutine goes on, and prints. -/
theorem Tracer.Ok.goesOn (h : t.Ok linking pid moves) (hlive : ¬ pid.toInt < 0)
    (hopen : t.monitor.processDone = false) (monitor : Monitor) (output : List String) :
    ({ t with monitor := monitor, output := output } : Tracer).Ok linking pid moves :=
  { h with
    asked := fun hmain => (h.asked hmain).imp_right fun hdone => by simp [hopen] at hdone
    silent := fun hneg => absurd hneg hlive
    crashed := fun hcrashed => by
      rw [h.crashed hcrashed] at hopen
      cases hopen }

/-- A step of the monitoring goroutine. -/
theorem Tracer.Ok.monitorStep (h : t.Ok linking pid moves) (heap : ContainerHeap) (alive : Bool)
    (inputs : PassInputs) :
    (t.monitorStep heap pid nTopStacks alive inputs).Ok linking pid
      (moves ++ [.monitor alive inputs]) := by
  have hidle : t.Ok linking pid (moves ++ [.monitor alive inputs]) := h.idle (by simp)
  -- in the middle of a pass the pid is not negative
  have hlive (hreading : t.monitor ≠ .checking) (hrunning : t.monitor ≠ .done) :
      ¬ pid.toInt < 0 := fun hneg => (h.silent hneg).2.elim hreading hrunning
  obtain ⟨main, monitor, cancelled, links, attached, output⟩ := t
  cases monitor with
  | checking =>
      unfold Tracer.monitorStep
      dsimp only
      split
      case isTrue hchecked =>
        refine hidle.goesOn (fun hneg => ?_) rfl _ _
        rcases hchecked with ⟨hpos, -⟩ | rfl
        · omega
        · exact absurd hneg (by decide)
      case isFalse hdead =>
        exact { hidle with
          asked := fun _ => Or.inr rfl
          silent := fun hneg => ⟨(hidle.silent hneg).1, Or.inr rfl⟩
          crashed := fun hcrashed => nomatch hidle.crashed hcrashed }
  | reading =>
      unfold Tracer.monitorStep
      dsimp only
      split
      all_goals exact hidle.goesOn (hlive (by simp) (by simp)) rfl _ _
  | printing lines =>
      cases lines with
      | nil => exact hidle.goesOn (hlive (by simp) (by simp)) rfl _ _
      | cons line lines => exact hidle.goesOn (hlive (by simp) (by simp)) rfl _ _
  | done => exact hidle
  | panicking =>
      exact { hidle with
        main := hidle.main.closedUpTo
        asked := fun _ => Or.inr rfl
        signalled := fun _ => Or.inr rfl
        crashed := fun _ => rfl }

/-- `Run` goes on once it is asked to end. -/
theorem Tracer.Ok.runsOn (h : t.Ok linking pid moves) (hgoing : ¬ t.main.Ended)
    (hasked : t.cancelled = true ∨ t.monitor.processDone = true) {main : Main}
    {attached : List Link} (hmain : main.Ok linking (hooksFor pid) attached)
    (hcrash : main ≠ .crashed) :
    ({ t with main := main, attached := attached } : Tracer).Ok linking pid moves :=
  { h with
    main := hmain
    asked := fun _ => hasked
    signalled := fun hs => Or.inl ((h.signalled hs).resolve_right fun hcrashed => by
      rw [hcrashed] at hgoing
      exact hgoing trivial)
    crashed := fun hcrashed => absurd hcrashed hcrash }

/-- A step of `Run`. -/
theorem Tracer.Ok.mainStep (h : t.Ok linking pid moves) :
    (t.mainStep linking).Ok linking pid (moves ++ [.main]) := by
  have hidle : t.Ok linking pid (moves ++ [.main]) := h.idle (by simp)
  obtain ⟨main, monitor, cancelled, links, attached, output⟩ := t
  cases main with
  | waiting =>
      unfold Tracer.mainStep
      dsimp only
      split
      case isTrue hasked =>
        have hattached : attached = hooksFor pid := h.main
        exact hidle.runsOn id hasked ⟨h.links.trans hattached.symm, [], hattached.symm, by simp⟩
          Main.noConfusion
      case isFalse => exact hidle
  | closing rest =>
      have hasked := hidle.asked Main.noConfusion
      obtain ⟨hrest, closed, hclosed, hok⟩ := h.main
      cases rest with
      | nil => exact hidle.runsOn id hasked ⟨hrest.symm, closed, hclosed, hok⟩ Main.noConfusion
      | cons entry rest =>
          cases entry with
          | none => exact hidle.runsOn id hasked ⟨hrest, closed, hclosed, hok⟩ Main.noConfusion
          | some l =>
              have hhead : attached = l :: rest.filterMap id := hrest.symm
              unfold Tracer.mainStep
              dsimp only
              split
              case h_1 hclose =>
                refine hidle.runsOn id hasked ⟨?_, closed ++ [l], ?_, ?_⟩ Main.noConfusion
                · rw [hhead, List.erase_cons_head]
                · rw [hclosed, hhead, List.erase_cons_head, List.append_assoc,
                    List.singleton_append]
                · intro l' hl'
                  rcases List.mem_append.mp hl' with hold | hnew
                  · exact hok l' hold
                  · rw [List.mem_singleton.mp hnew, hclose]
              case h_2 err hclose =>
                exact hidle.runsOn id hasked ⟨⟨l, _, hhead, hclose⟩, closed, hclosed, hok⟩
                  Main.noConfusion
  | returned err => exact hidle
  | crashed => exact hidle

/-- **A step of the tracer.** -/
theorem Tracer.Ok.step (h : t.Ok linking pid moves) (heap : ContainerHeap) (move : Move) :
    (t.step heap linking pid nTopStacks move).Ok linking pid (moves ++ [move]) := by
  unfold Tracer.step
  split
  case h_1 hcrashed => exact h.idle fun _ => hcrashed
  case h_2 => exact h.signal
  case h_3 alive inputs _ => exact h.monitorStep heap alive inputs
  case h_4 => exact h.mainStep

/-- **A run of the tracer.** -/
theorem Tracer.Ok.foldl (h : t.Ok linking pid moves) (heap : ContainerHeap)
    (moves' : List Move) :
    (moves'.foldl (Tracer.step heap linking pid nTopStacks) t).Ok linking pid
      (moves ++ moves') := by
  induction moves' generalizing t moves with
  | nil => simpa using h
  | cons move moves' ih => simpa using ih (h.step heap move)

end Moves

/-! ### What `Run` is told -/

section Told

variable (heap : ContainerHeap) (linking : Linking) (pid : GoInt) (nTopStacks : Int)

/-- The monitoring goroutine has been at this point and was given such answers there. -/
def Answered (t₀ : Tracer) (moves : List Move) (monitor : Monitor)
    (P : Bool → PassInputs → Prop) : Prop :=
  ∃ pre alive inputs, pre ++ [.monitor alive inputs] <+: moves ∧
    (pre.foldl (Tracer.step heap linking pid nTopStacks) t₀).monitor = monitor ∧ P alive inputs

/-- What makes `Run` leave its `select`. -/
inductive ToldToEnd (t₀ : Tracer) (moves : List Move) : Prop
  /-- A signal has arrived. -/
  | signal (h : Move.signal ∈ moves)
  /-- The loop of the goroutine ends at once. -/
  | negative (h : pid.toInt < 0)
  /-- `isProcessAlive` has said no. -/
  | exited (hpid : 0 < pid.toInt)
      (h : Answered heap linking pid nTopStacks t₀ moves .checking fun alive _ => alive = false)
  /-- A pass has panicked. -/
  | panicked (hn : nTopStacks < 1)
      (h : Answered heap linking pid nTopStacks t₀ moves .reading fun _ inputs =>
        reportPass heap nTopStacks inputs.combined inputs.allocs = none)

variable {heap linking pid nTopStacks} {t t₀ : Tracer}

/-- The conditions of the loop leave a process that has exited, and a negative pid. -/
theorem dead_of_not_checked {alive : Bool} (h : ¬ ((0 < pid.toInt ∧ alive = true) ∨ pid = 0)) :
    pid.toInt < 0 ∨ (0 < pid.toInt ∧ alive = false) := by
  obtain ⟨hdead, hzero⟩ := not_or.mp h
  have hne : pid.toInt ≠ 0 := fun hz => hzero (BitVec.eq_of_toInt_eq hz)
  rcases lt_or_gt_of_ne hne with hneg | hpos
  · exact Or.inl hneg
  · exact Or.inr ⟨hpos, Bool.eq_false_iff.mpr fun halive => hdead ⟨hpos, halive⟩⟩

/-- A pass panics only without stacks to select. -/
theorem lt_one_of_reportPass {inputs : PassInputs}
    (h : reportPass heap nTopStacks inputs.combined inputs.allocs = none) : nTopStacks < 1 := by
  by_contra hn
  obtain ⟨top, hselect, -⟩ := selectTop_spec heap (Int.not_lt.mp hn) inputs.combined
  rw [reportPass, hselect] at h
  cases h

/-- **What a step does to the monitoring goroutine.** It leaves the loop at its condition, or in
a pass that panics. -/
theorem monitor_step_cases (t : Tracer) (move : Move) :
    (t.step heap linking pid nTopStacks move).monitor = t.monitor ∨
      (t.step heap linking pid nTopStacks move).monitor.processDone = false ∨
      ∃ alive inputs, move = .monitor alive inputs ∧
        ((t.monitor = .checking ∧ (pid.toInt < 0 ∨ (0 < pid.toInt ∧ alive = false)) ∧
            (t.step heap linking pid nTopStacks move).monitor = .done) ∨
          (t.monitor = .reading ∧
            reportPass heap nTopStacks inputs.combined inputs.allocs = none ∧
            (t.step heap linking pid nTopStacks move).monitor = .panicking)) := by
  unfold Tracer.step
  split
  case h_1 => exact Or.inl rfl
  case h_2 => exact Or.inl rfl
  case h_3 alive inputs _ =>
    unfold Tracer.monitorStep
    split
    case h_1 hat =>
      split
      case isTrue => exact Or.inr (Or.inl rfl)
      case isFalse hdead =>
        exact Or.inr (Or.inr ⟨alive, inputs, rfl, Or.inl ⟨hat, dead_of_not_checked hdead, rfl⟩⟩)
    case h_2 hat =>
      split
      case h_1 hpanic =>
        exact Or.inr (Or.inr ⟨alive, inputs, rfl, Or.inr ⟨hat, hpanic, rfl⟩⟩)
      case h_2 => exact Or.inr (Or.inl rfl)
    case h_3 => exact Or.inr (Or.inl rfl)
    case h_4 => exact Or.inr (Or.inl rfl)
    case h_5 => exact Or.inl rfl
    case h_6 => exact Or.inl rfl
  case h_4 =>
    unfold Tracer.mainStep
    split
    case h_1 => split <;> exact Or.inl rfl
    case h_4 => split <;> exact Or.inl rfl
    all_goals exact Or.inl rfl

/-- **`processDone` is closed for a reason.** -/
theorem toldToEnd_of_processDone {moves : List Move} (hopen : ¬ t₀.monitor.processDone = true)
    (hdone : (moves.foldl (Tracer.step heap linking pid nTopStacks) t₀).monitor.processDone =
      true) : ToldToEnd heap linking pid nTopStacks t₀ moves := by
  obtain ⟨pre, move, hpre, hbefore, hafter⟩ := @Run.exists_step_of_foldl _ _
    (Tracer.step heap linking pid nTopStacks) (fun t => t.monitor.processDone = true) _ _
    hopen hdone
  rcases monitor_step_cases _ move with hsame | hopen' | ⟨alive, inputs, rfl, hwhy⟩
  · exact absurd (hsame ▸ hafter) hbefore
  · exact absurd hafter (by simp [hopen'])
  · rcases hwhy with ⟨hat, hneg | ⟨hpos, hdead⟩, -⟩ | ⟨hat, hpanic, -⟩
    · exact .negative hneg
    · exact .exited hpos ⟨pre, alive, inputs, hpre, hat, hdead⟩
    · exact .panicked (lt_one_of_reportPass hpanic) ⟨pre, alive, inputs, hpre, hat, hpanic⟩

/-- The program crashes only without stacks to select. -/
theorem lt_one_of_panicking {moves : List Move} (hstart : t₀.monitor ≠ .panicking)
    (h : (moves.foldl (Tracer.step heap linking pid nTopStacks) t₀).monitor = .panicking) :
    nTopStacks < 1 := by
  obtain ⟨pre, move, -, hbefore, hafter⟩ := @Run.exists_step_of_foldl _ _
    (Tracer.step heap linking pid nTopStacks) (fun t => t.monitor = .panicking) _ _ hstart h
  rcases monitor_step_cases _ move with hsame | hopen | ⟨alive, inputs, -, hwhy⟩
  · exact absurd (hsame.symm.trans hafter) hbefore
  · rw [hafter] at hopen
    cases hopen
  · rcases hwhy with ⟨-, -, hdone⟩ | ⟨-, hpanic, -⟩
    · cases hdone.symm.trans hafter
    · exact lt_one_of_reportPass hpanic

end Told

/-! ### The end -/

/-- A move of `Run`. -/
def Move.isMain : Move → Bool
  | .main => true
  | _ => false

/-- The steps `Run` has left at most, once it is asked to end. -/
def Tracer.left (t : Tracer) : Nat :=
  match t.main with
  | .waiting => t.links.length + 2
  | .closing links => links.length + 1
  | .returned _ | .crashed => 0

theorem left_eq_zero_iff {t : Tracer} : t.left = 0 ↔ t.main.Ended := by
  unfold Tracer.left
  split <;> simp_all [Main.Ended]

section Ends

variable (heap : ContainerHeap) (linking : Linking) (pid : GoInt) (nTopStacks : Int)

/-- The monitoring goroutine leaves `Run` where it is, or crashes the tracer. -/
theorem left_monitorStep (alive : Bool) (inputs : PassInputs) (t : Tracer) :
    (t.monitorStep heap pid nTopStacks alive inputs).cancelled = t.cancelled ∧
      (t.monitorStep heap pid nTopStacks alive inputs).left ≤ t.left := by
  unfold Tracer.monitorStep
  split
  case h_1 => split <;> exact ⟨rfl, Nat.le_refl _⟩
  case h_2 => split <;> exact ⟨rfl, Nat.le_refl _⟩
  case h_6 => exact ⟨rfl, Nat.zero_le _⟩
  all_goals exact ⟨rfl, Nat.le_refl _⟩

/-- `Run` never goes back, and once it is asked to end it goes on, link by link. -/
theorem left_mainStep (t : Tracer) :
    (t.mainStep linking).cancelled = t.cancelled ∧ (t.mainStep linking).left ≤ t.left ∧
      (t.cancelled = true → (t.mainStep linking).left ≤ t.left - 1) := by
  obtain ⟨main, monitor, cancelled, links, attached, output⟩ := t
  cases main with
  | waiting =>
      unfold Tracer.mainStep
      dsimp only
      split
      case isTrue => simp [Tracer.left]
      case isFalse hwait =>
        exact ⟨rfl, Nat.le_refl _, fun hcancelled => absurd (Or.inl hcancelled) hwait⟩
  | closing rest =>
      cases rest with
      | nil => simp [Tracer.mainStep, Tracer.left]
      | cons entry rest =>
          cases entry with
          | none => simp [Tracer.mainStep, Tracer.left]
          | some l => cases h : linking.close l <;> simp [Tracer.mainStep, Tracer.left, h]
  | returned err => exact ⟨rfl, Nat.le_refl _, fun _ => Nat.le_refl _⟩
  | crashed => exact ⟨rfl, Nat.le_refl _, fun _ => Nat.le_refl _⟩

/-- **A cancelled tracer comes nearer to its end** with every step of `Run`. -/
theorem left_step (t : Tracer) (move : Move) :
    (t.step heap linking pid nTopStacks move).left ≤ t.left ∧ (t.cancelled = true →
      (t.step heap linking pid nTopStacks move).cancelled = true ∧
        (t.step heap linking pid nTopStacks move).left ≤
          t.left - if move.isMain then 1 else 0) := by
  unfold Tracer.step
  split
  case h_1 hcrashed => simp [Tracer.left, hcrashed]
  case h_2 => exact ⟨Nat.le_refl _, fun _ => ⟨rfl, Nat.le_refl _⟩⟩
  case h_3 alive inputs _ =>
    obtain ⟨hcancelled, hleft⟩ := left_monitorStep heap pid nTopStacks alive inputs t
    exact ⟨hleft, fun hasked => ⟨hcancelled.trans hasked, hleft⟩⟩
  case h_4 =>
    obtain ⟨hcancelled, hleft, hnear⟩ := left_mainStep linking t
    exact ⟨hleft, fun hasked => ⟨hcancelled.trans hasked, hnear hasked⟩⟩

theorem left_foldl_le (t : Tracer) (moves : List Move) :
    (moves.foldl (Tracer.step heap linking pid nTopStacks) t).left ≤ t.left := by
  induction moves generalizing t with
  | nil => exact Nat.le_refl _
  | cons move moves ih =>
      exact (ih _).trans (left_step heap linking pid nTopStacks t move).1

theorem left_foldl {t : Tracer} (hasked : t.cancelled = true) (moves : List Move) :
    (moves.foldl (Tracer.step heap linking pid nTopStacks) t).left ≤
      t.left - moves.countP Move.isMain := by
  induction moves generalizing t with
  | nil => exact Nat.le_refl _
  | cons move moves ih =>
      obtain ⟨hcancelled, hleft⟩ := (left_step heap linking pid nTopStacks t move).2 hasked
      refine (ih hcancelled).trans ?_
      rw [List.countP_cons]
      omega

end Ends

section Start

variable {F : Flags} {answers : Loading} {fs : FileSystem} {linking : Linking} {g : Globals}
  {t₀ : Tracer}

/-- The goroutines start with everything attached. -/
theorem eq_of_start (hstart : F.start answers fs linking = .running g t₀) :
    ∃ links, t₀ = ⟨.waiting, .checking, false, links, hooksFor F.pid, []⟩ ∧
      links.filterMap id = hooksFor F.pid ∧ links.length ≤ 42 := by
  unfold Flags.start at hstart
  split at hstart
  case h_1 => cases hstart
  case h_2 =>
    rcases attachPrograms_cases fs linking F.pid with
      ⟨links, err, hattach, -⟩ | ⟨message, hattach, -⟩ | ⟨links, hattach, hhooks, hlength⟩
    · rw [hattach] at hstart
      cases hstart
    · rw [hattach] at hstart
      cases hstart
    · rw [hattach] at hstart
      cases hstart
      exact ⟨links, by rw [hhooks], hhooks, hlength⟩

theorem ok_start (hstart : F.start answers fs linking = .running g t₀) :
    t₀.Ok linking F.pid [] ∧ t₀.monitor = .checking ∧ t₀.left ≤ 44 := by
  obtain ⟨links, rfl, hhooks, hlength⟩ := eq_of_start hstart
  refine ⟨⟨hhooks, rfl, fun hw => absurd rfl hw, ?_, ?_, fun _ => ⟨rfl, Or.inl rfl⟩, ?_⟩, rfl,
    Nat.add_le_add_right hlength 2⟩
  all_goals simp

/-- After a signal `Run` comes to its end, or the program has crashed. -/
theorem ended_of_signal (hstart : F.start answers fs linking = .running g t₀)
    (heap : ContainerHeap) {pre post : List Move} (hsignal : Move.signal ∈ pre)
    (hsteps : 44 ≤ post.countP Move.isMain) :
    ((pre ++ post).foldl (Tracer.step heap linking F.pid F.nTopStacks) t₀).main.Ended := by
  obtain ⟨hinit, -, hleft⟩ := ok_start hstart
  have hok : (pre.foldl (Tracer.step heap linking F.pid F.nTopStacks) t₀).Ok linking F.pid pre :=
    hinit.foldl heap pre
  have hpre := left_foldl_le heap linking F.pid F.nTopStacks t₀ pre
  rw [← left_eq_zero_iff, List.foldl_append]
  rcases hok.signalled hsignal with hcancelled | hcrashed
  · have hpost := left_foldl heap linking F.pid F.nTopStacks hcancelled post
    omega
  · have hpost := left_foldl_le heap linking F.pid F.nTopStacks
      (pre.foldl (Tracer.step heap linking F.pid F.nTopStacks) t₀) post
    have hended : (pre.foldl (Tracer.step heap linking F.pid F.nTopStacks) t₀).main.Ended :=
      hcrashed ▸ trivial
    rw [left_eq_zero_iff.mpr hended] at hpost
    exact Nat.le_zero.mp hpost

end Start

/-- Everything works but the `Close` of the second link. -/
def stuckKfree : Linking where
  openExecutable _ := none
  attach _ := none
  close l := if l.2 = .memleakKfree then some "bad link" else none

/-- The kernel is traced. -/
def kernelTracer : Tracer :=
  ⟨.waiting, .checking, false, kernelHooks.map some, kernelHooks, []⟩

end EbpfMemleak
