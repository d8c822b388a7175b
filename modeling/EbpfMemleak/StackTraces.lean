import EbpfMemleak.Kallsyms
import EbpfMemleak.LibcPath

/-!
# EbpfMemleak.StackTraces

From a stack id to the frames that are printed: `getUserspaceStackTrace` and
`getKernelspaceStackTrace` (`probe.go`).

Both look the trace up, make a resolver and go over the addresses of the trace; a frame is
the address with the text of its symbol or with `[unknown]`. The resolvers iterate over Go
maps, anew for every frame, so the loop is told with one order for each call of `Resolve`
(`stackFrames`), and `forall₂_stackFrames` carries what every call says over to the frames.

`kernel_frames_of_kallsyms` and `user_frames_of_maps` say what the frames are in terms of the
files the kernel prints, `/proc/kallsyms` and `/proc/<pid>/maps`.
-/

namespace EbpfMemleak

open Text

/-! ### The frames -/

/-- `maxStackDepth`. -/
def maxStackDepth : Nat := 127

/-- `StackTrace`: the addresses of a trace, with zeros behind the last. -/
abbrev StackTrace := Vector U64 maxStackDepth

/-- `Lookup` in the map `stack_traces`: the trace of a stack id, or the error. -/
abbrev StackTraces := U32 → Except String StackTrace

/-- The frame of an address, from what `Resolve` returns. -/
def frameText (pc : U64) : Except String String → String
  | .error _ => hex pc ++ " [unknown]"
  | .ok sym => hex pc ++ " " ++ sym

/-- The loop over a trace; `resolve i` is `Resolve` as it is called for address `i`. -/
def stackFrames (resolve : Nat → U64 → Except String String) (trace : StackTrace) :
    List String :=
  trace.toList.zipIdx.filterMap fun (pc, i) =>
    if pc = 0 then none else some (frameText pc (resolve i pc))

/-- The addresses of a trace that get a frame. -/
def StackTrace.addresses (trace : StackTrace) : List U64 := trace.toList.filter fun pc => pc ≠ 0

/-- What holds of the frame of every address holds of all frames, one for each address. -/
theorem forall₂_stackFrames {resolve : Nat → U64 → Except String String}
    {P : U64 → String → Prop} (trace : StackTrace)
    (h : ∀ i pc, P pc (frameText pc (resolve i pc))) :
    List.Forall₂ P trace.addresses (stackFrames resolve trace) := by
  unfold stackFrames StackTrace.addresses
  generalize trace.toList = pcs
  -- the addresses behind a part of the trace, with any number in front
  suffices hall : ∀ k, List.Forall₂ P (pcs.filter fun pc => pc ≠ 0)
      ((pcs.zipIdx k).filterMap fun (pc, i) =>
        if pc = 0 then none else some (frameText pc (resolve i pc))) from hall 0
  induction pcs with
  | nil => simp
  | cons pc pcs ih =>
      intro k
      by_cases hpc : pc = 0
      · simpa [List.zipIdx_cons, hpc] using ih (k + 1)
      · rw [List.filter_cons_of_pos (by simpa using hpc), List.zipIdx_cons]
        simp only [List.filterMap_cons, hpc, if_false]
        exact .cons (h k pc) (ih (k + 1))

/-! ### `getKernelspaceStackTrace` -/

/-- `getKernelspaceStackTrace`, with the orders in which the calls of `Resolve` visit the
symbols. -/
def getKernelspaceStackTrace (tools : Tools) (host : Host) (stackTraces : StackTraces)
    (orders : ∀ r : KernelSymbolResolver, Nat → Enumeration r.kallsyms) (stackId : U32) :
    Except String (List String) :=
  match stackTraces stackId with
  | .error err => .error err
  | .ok trace =>
      match newKernelSymbolResolver host (findVmlinux host) with
      | .error err => .error err
      | .ok r => .ok (stackFrames (fun i pc => r.resolve tools (orders r i) pc) trace)

/-- The frame of a kernel address on a machine with these symbols. -/
def KernelFrame (tools : Tools) (ls : List KallsymsLine) (vmlinuxPath : String) (pc : U64)
    (frame : String) : Prop :=
  (∃ l, NearestLine ls pc l ∧ frame = hex pc ++ " " ++
      KernelSymbolResolver.report tools ⟨kallsymsOf ls, vmlinuxPath⟩ pc l.addr l.name) ∨
    ((∀ l ∈ ls, 1 ≤ l.addr → ¬ l.addr ≤ pc) ∧ frame = hex pc ++ " [unknown]")

/-- **The frames of a kernel trace.** Every address of the trace gets one, in order: the
name of the last line of `/proc/kallsyms` with the greatest address up to it, or `[unknown]`
if there is none above 0. One line that is too long for the scanner makes all traces fail. -/
theorem kernel_frames_of_kallsyms (tools : Tools) (host : Host) (stackTraces : StackTraces)
    (orders : ∀ r : KernelSymbolResolver, Nat → Enumeration r.kallsyms) (stackId : U32)
    (trace : StackTrace) (ls : List KallsymsLine) (htrace : stackTraces stackId = .ok trace)
    (hkallsyms : host.openText "/proc/kallsyms" = .ok ⟨kallsymsText ls, none⟩) :
    (TooLong ls → getKernelspaceStackTrace tools host stackTraces orders stackId =
        .error "failed to load kallsyms: bufio.Scanner: token too long") ∧
      (¬ TooLong ls → ∃ frames,
        getKernelspaceStackTrace tools host stackTraces orders stackId = .ok frames ∧
          List.Forall₂ (KernelFrame tools ls (findVmlinux host)) trace.addresses frames) := by
  unfold getKernelspaceStackTrace
  rw [htrace, newKernelSymbolResolver_findVmlinux]
  dsimp only
  rcases loadKernelSymbolsFromKallsyms_eq hkallsyms with ⟨hlong, hload⟩ | ⟨hshort, hload⟩
  · refine ⟨fun _ => ?_, fun hshort => absurd hlong hshort⟩
    rw [hload]
    rfl
  · refine ⟨fun hlong => absurd hlong hshort, fun _ => ?_⟩
    rw [hload]
    refine ⟨_, rfl, forall₂_stackFrames trace fun i pc => ?_⟩
    rcases @kernelResolve_kallsyms ls pc tools ⟨kallsymsOf ls, findVmlinux host⟩ rfl
        (orders _ i) with ⟨l, hl, hok⟩ | ⟨hno, herr⟩
    · rw [hok]
      exact Or.inl ⟨l, hl, rfl⟩
    · rw [herr]
      exact Or.inr ⟨hno, rfl⟩

/-- A trace of two addresses. -/
def shortTrace (pc pc' : U64) : StackTrace :=
  Vector.ofFn fun i => if i.val = 0 then pc else if i.val = 1 then pc' else 0

/-- An address below the only symbol has no name, and one above it has. -/
theorem kernel_frames_of_kallsyms_schedule : ∃ frames,
    getKernelspaceStackTrace ⟨fun _ => none, fun _ _ => none⟩ (hostOf [scheduleSymbol])
        (fun _ => .ok (shortTrace 0x1000 0xffffffff81000010)) (fun r _ => .ofMap r.kallsyms) 7 =
      .ok frames ∧ frames.length = 2 := by
  obtain ⟨frames, hok, hframes⟩ := (kernel_frames_of_kallsyms ⟨fun _ => none, fun _ _ => none⟩
    (hostOf [scheduleSymbol]) (fun _ => .ok (shortTrace 0x1000 0xffffffff81000010))
    (fun r _ => .ofMap r.kallsyms) 7 (shortTrace 0x1000 0xffffffff81000010) [scheduleSymbol]
    rfl rfl).2 hostOf_not_tooLong
  have hlength : (shortTrace 0x1000 0xffffffff81000010).addresses.length = 2 := by decide
  exact ⟨frames, hok, hframes.length_eq ▸ hlength⟩

/-! ### `getUserspaceStackTrace` -/

/-- `getUserspaceStackTrace`, with the orders in which the calls of `Resolve` visit the
symbols. The maps file is opened twice, and what there is of it the second time is another
question than the first. -/
def getUserspaceStackTrace (tools : Tools) (fs fs' : FileSystem) (stackTraces : StackTraces)
    (passes : ∀ r : SymbolResolver, Nat → r.Passes) (stackId : U32) (pid : Int) :
    Except String (List String) :=
  match stackTraces stackId with
  | .error err => .error err
  | .ok trace =>
      match newUserspaceSymbolResolver fs (procMaps pid) with
      | .error err => .error err
      | .ok r =>
          -- opened once more, but not read
          match fs'.openText (procMaps pid) with
          | .error err => .error err
          | .ok _ => .ok (stackFrames (fun i pc => r.resolve tools (passes r i) pc) trace)

/-- The entry of a mapping, if it gets one: an executable mapping of a file that opens. -/
def MapsLine.entry (fs : FileSystem) (m : MapsLine) : Option ProcMapEntry :=
  if ['/'] <+: m.name.toList ∧ m.executable = true then
    (fs.openElf m.name).map fun file =>
      { start := m.start, endAddr := m.endAddr, offset := m.offset, path := m.name
        symbols := loadSymbols file.syms file.dynSyms }
  else none

theorem executable_iff_perms {m : MapsLine} : ['x'] <:+: m.perms ↔ m.executable = true := by
  have hall : ∀ r w x s : Bool, ['x'] <:+: [if r then 'r' else '-', if w then 'w' else '-',
      if x then 'x' else '-', if s then 's' else 'p'] ↔ x = true := by decide
  exact hall m.readable m.writable m.executable m.shared

/-- A line whose name is a word gives the entry of its mapping. -/
theorem parseMapsLine_eq_entry {fs : FileSystem} {m : MapsLine}
    (hword : ∀ c ∈ m.name.toList, isSpace c = false) :
    parseMapsLine fs m.render = m.entry fs := by
  unfold MapsLine.entry
  split
  case isTrue h =>
    have hne : m.name.toList ≠ [] := fun hnil => by simp [hnil] at h
    exact parseMapsLine_render (fields_eq_singleton hne hword) h.1 h.2
  case isFalse h =>
    rw [Option.eq_none_iff_forall_ne_some]
    intro e he
    unfold parseMapsLine at he
    rw [m.fields_render] at he
    by_cases hne : m.name.toList = []
    · simp [hne] at he
    · rw [fields_eq_singleton hne hword] at he
      dsimp only at he
      split at he
      case h_2 => cases he
      case h_1 =>
        simp only [Option.bind_eq_bind, Option.bind_eq_some_iff] at he
        obtain ⟨_, -, _, -, _, -, he⟩ := he
        rw [if_neg fun hx => h ⟨hx.1, executable_iff_perms.mp hx.2⟩] at he
        cases he

/-- **What the resolver reads**: the executable mappings of files that open, in order. -/
theorem newUserspaceSymbolResolver_mapsText {fs : FileSystem} {pid : Int} {ms : List MapsLine}
    (hmaps : fs.openText (procMaps pid) = .ok ⟨mapsText ms, none⟩)
    (hnames : ∀ m ∈ ms, m.WordNamed) :
    newUserspaceSymbolResolver fs (procMaps pid) = .ok ⟨ms.filterMap (MapsLine.entry fs)⟩ := by
  rw [resolver_of_open hmaps, scan_mapsText hnames, List.filterMap_map]
  congr 2
  exact List.filterMap_congr fun m hm => parseMapsLine_eq_entry (hnames m hm).word

/-- The frame of an address of a process with these mappings. -/
def UserFrame (tools : Tools) (fs : FileSystem) (ms : List MapsLine) (pc : U64)
    (frame : String) : Prop :=
  let r : SymbolResolver := ⟨ms.filterMap (MapsLine.entry fs)⟩
  (∃ s, r.FirstFound pc s ∧ frame = hex pc ++ " " ++ s.report tools pc) ∨
    ((∀ s : FoundSymbol, s.mapping ∈ r.mappings → ¬ s.Qualifies pc) ∧
      frame = hex pc ++ " [unknown]")

/-- **The frames of a user trace.** Every address of the trace gets one, in order: the
closest symbol of the first mapping around it that has one with a name, or `[unknown]` if
none has. The trace fails only with the file being gone when it is opened again. -/
theorem user_frames_of_maps (tools : Tools) (fs fs' : FileSystem) (stackTraces : StackTraces)
    (passes : ∀ r : SymbolResolver, Nat → r.Passes) (stackId : U32) (pid : Int)
    (trace : StackTrace) (ms : List MapsLine) (htrace : stackTraces stackId = .ok trace)
    (hmaps : fs.openText (procMaps pid) = .ok ⟨mapsText ms, none⟩)
    (hnames : ∀ m ∈ ms, m.WordNamed) :
    (∀ err, fs'.openText (procMaps pid) = .error err →
        getUserspaceStackTrace tools fs fs' stackTraces passes stackId pid = .error err) ∧
      (∀ f, fs'.openText (procMaps pid) = .ok f → ∃ frames,
        getUserspaceStackTrace tools fs fs' stackTraces passes stackId pid = .ok frames ∧
          List.Forall₂ (UserFrame tools fs ms) trace.addresses frames) := by
  unfold getUserspaceStackTrace
  rw [htrace, newUserspaceSymbolResolver_mapsText hmaps hnames]
  dsimp only
  refine ⟨fun err hgone => by rw [hgone], fun f hopen => ?_⟩
  rw [hopen]
  refine ⟨_, rfl, forall₂_stackFrames trace fun i pc => ?_⟩
  cases hresolve : SymbolResolver.resolve tools (passes _ i) pc with
  | ok sym =>
      obtain ⟨s, hs, rfl⟩ := (resolve_eq_ok_iff (passes _ i)).mp hresolve
      exact Or.inl ⟨s, hs, rfl⟩
  | error msg =>
      exact Or.inr ⟨((resolve_eq_error_iff (passes _ i)).mp hresolve).1, rfl⟩

theorem wordNamed_libcPage : ∀ m ∈ [libcPage.line], m.WordNamed := by
  intro m hm
  rw [List.mem_singleton.mp hm]
  exact ⟨forall_mem_of_all (by decide), by decide⟩

/-- A trace into a library without symbols. -/
theorem user_frames_of_maps_libc : ∃ frames,
    getUserspaceStackTrace ⟨fun _ => none, fun _ _ => none⟩ (filesOf libcPage) (filesOf libcPage)
        (fun _ => .ok (shortTrace 0x1010 0x3000)) (fun r _ => r.somePasses) 7 1 =
      .ok frames ∧ frames.length = 2 := by
  obtain ⟨frames, hok, hframes⟩ := (user_frames_of_maps ⟨fun _ => none, fun _ _ => none⟩
    (filesOf libcPage) (filesOf libcPage) (fun _ => .ok (shortTrace 0x1010 0x3000))
    (fun r _ => r.somePasses) 7 1 (shortTrace 0x1010 0x3000) [libcPage.line] rfl rfl
    wordNamed_libcPage).2 _ rfl
  have hlength : (shortTrace 0x1010 0x3000).addresses.length = 2 := by decide
  exact ⟨frames, hok, hframes.length_eq ▸ hlength⟩

end EbpfMemleak
