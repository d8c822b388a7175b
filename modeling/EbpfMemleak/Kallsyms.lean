import EbpfMemleak.MapsFile

/-!
# EbpfMemleak.Kallsyms

`/proc/kallsyms`: how the kernel prints its symbols, and what `kernelspace.go` reads of it.

A line is an address, a letter, a name and for a symbol of a module the name of the module,
so its first and third field give the symbol back (`parseKallsymsLine_render`). Of symbols
with one address the map keeps the last (`lookup_kallsymsOf`), and a scan over the text
delivers every line unless one does not fit (`loadKernelSymbolsFromKallsyms_eq`).

`kernelResolve_kallsyms` puts the reading and the search together: the resolver names the
last of the lines with the greatest address up to the one asked for.
-/

namespace EbpfMemleak

open Text

/-! ### What the kernel prints -/

/-- A line of `/proc/kallsyms`. -/
structure KallsymsLine where
  addr : U64
  type : Char
  type_word : isSpace type = false
  name : String
  name_ne : name ≠ ""
  name_word : ∀ c ∈ name.toList, isSpace c = false
  /-- The module of a symbol that is not of the kernel image. -/
  moduleName : Option String
  moduleName_word : ∀ m ∈ moduleName, ∀ c ∈ m.toList, isSpace c = false

namespace KallsymsLine

variable (l : KallsymsLine)

/-- What stands behind the name. -/
def suffix : List Char :=
  match l.moduleName with
  | some m => '\t' :: '[' :: (m.toList ++ [']'])
  | none => []

/-- `s_show`, without the end of the line: `"%px %c %s\t[%s]"` or `"%px %c %s"`. -/
def render : List Char :=
  putHex 16 l.addr.toNat ++ ' ' :: ([l.type] ++ ' ' :: (l.name.toList ++ l.suffix))

end KallsymsLine

/-- The whole file. -/
def kallsymsText (ls : List KallsymsLine) : List Char := ls.flatMap fun l => l.render ++ ['\n']

/-! ### `LoadKernelSymbolsFromKallsyms` -/

/-- The body of the loop: the symbol a line adds, if it adds one. -/
def parseKallsymsLine (line : List Char) : Option (U64 × String) :=
  match fields isSpace line with
  | addr :: _ :: name :: _ => (parseUint 16 64 addr).map fun addr => (addr, String.ofList name)
  -- fewer than three fields
  | _ => none

/-- The map after a loop that adds these symbols. -/
def collectKallsyms (syms : List (U64 × String)) : Finmap fun _ : U64 => String :=
  syms.foldl (fun syms s => syms.insert s.1 s.2) ∅

/-- `LoadKernelSymbolsFromKallsyms`. -/
def loadKernelSymbolsFromKallsyms (fs : FileSystem) :
    Except String (Finmap fun _ : U64 => String) :=
  match fs.openText "/proc/kallsyms" with
  | .error err => .error err
  | .ok f =>
      match f.scanErr with
      | some err => .error err
      | none => .ok (collectKallsyms (f.scan.lines.filterMap parseKallsymsLine))

/-- The names of the printed symbols, as they are to be read. -/
def kallsymsOf (ls : List KallsymsLine) : Finmap fun _ : U64 => String :=
  collectKallsyms (ls.map fun l => (l.addr, l.name))

/-! ### What is read of a line -/

namespace KallsymsLine

variable (l : KallsymsLine)

theorem fields_suffix {w : List Char} (hne : w ≠ []) (hw : ∀ c ∈ w, isSpace c = false) :
    ∃ rest, fields isSpace (w ++ l.suffix) = w :: rest := by
  unfold suffix
  cases l.moduleName with
  | none => exact ⟨[], by rw [List.append_nil, fields_eq_singleton hne hw]⟩
  | some m => exact ⟨_, fields_word_append hne hw (by decide) _⟩

/-- **A line is read back**: its address and its name. -/
theorem parse_render : parseKallsymsLine l.render = some (l.addr, l.name) := by
  have hword := headerWord_putHex 16 l.addr.toNat
  have hname : l.name.toList ≠ [] := fun h => l.name_ne (String.toList_eq_nil_iff.mp h)
  obtain ⟨rest, hrest⟩ := l.fields_suffix hname l.name_word
  have hhex : parseUint 16 64 (putHex 16 l.addr.toNat) = some l.addr :=
    parseUint_toDigits (by decide) (by decide) _ l.addr
  unfold parseKallsymsLine render
  rw [fields_word_append hword.ne_nil hword.isSpace (by decide),
    fields_word_append (by simp) (by simpa using l.type_word) (by decide), hrest]
  simp [hhex]

theorem mem_render {c : Char} (h : c ∈ l.render) : isSpace c = false ∨ c = ' ' ∨ c = '\t' := by
  have hsuffix : c ∈ l.suffix → isSpace c = false ∨ c = ' ' ∨ c = '\t' := by
    unfold suffix
    split
    case h_2 => simp
    case h_1 m hm =>
      simp only [List.mem_cons, List.mem_append, List.not_mem_nil, or_false]
      rintro (rfl | rfl | hc | rfl)
      · exact Or.inr (Or.inr rfl)
      · exact Or.inl (by decide)
      · exact Or.inl (l.moduleName_word m hm c hc)
      · exact Or.inl (by decide)
  simp only [render, List.mem_append, List.mem_cons, List.not_mem_nil, or_false] at h
  rcases h with h | rfl | rfl | rfl | h | h
  · exact Or.inl ((headerWord_putHex _ _).isSpace c h)
  · exact Or.inr (Or.inl rfl)
  · exact Or.inl l.type_word
  · exact Or.inr (Or.inl rfl)
  · exact Or.inl (l.name_word c h)
  · exact hsuffix h

theorem not_mem_render {c : Char} (hspace : isSpace c = true) (hblank : c ≠ ' ')
    (htab : c ≠ '\t') : c ∉ l.render := by
  intro h
  rcases l.mem_render h with h | h | h
  · simp [hspace] at h
  · exact hblank h
  · exact htab h

end KallsymsLine

/-! ### What is read of the file -/

section Loaded

variable {fs : FileSystem} {ls : List KallsymsLine}

/-- The symbol a map keeps: the last of its address. -/
theorem lookup_kallsymsOf {addr : U64} {name : String} :
    (kallsymsOf ls).lookup addr = some name ↔
      ∃ pre l post, ls = pre ++ l :: post ∧ l.addr = addr ∧ l.name = name ∧
        ∀ l' ∈ post, l'.addr ≠ addr := by
  unfold kallsymsOf collectKallsyms
  rw [lookup_foldl_insert]
  constructor
  · rintro ⟨pre, post, hsplit, hpost⟩
    obtain ⟨ls₁, ls₂, rfl, rfl, hrest⟩ := List.map_eq_append_iff.mp hsplit
    obtain ⟨l, ls₃, rfl, hl, rfl⟩ := List.map_eq_cons_iff.mp hrest
    refine ⟨ls₁, l, ls₃, rfl, (Prod.mk.inj hl).1, (Prod.mk.inj hl).2, fun l' hl' => ?_⟩
    exact hpost _ (List.mem_map_of_mem hl')
  · rintro ⟨pre, l, post, rfl, rfl, rfl, hpost⟩
    refine ⟨pre.map _, post.map _, by rw [List.map_append, List.map_cons], ?_⟩
    exact List.forall_mem_map.mpr hpost

theorem mem_kallsymsOf {addr : U64} : addr ∈ kallsymsOf ls ↔ ∃ l ∈ ls, l.addr = addr := by
  unfold kallsymsOf collectKallsyms
  induction ls using List.reverseRecOn with
  | nil => simp [Finmap.notMem_empty]
  | append_singleton ls l ih =>
      simp only [List.map_append, List.map_cons, List.map_nil, List.foldl_append, List.foldl_cons,
        List.foldl_nil, Finmap.mem_insert, ih]
      simp [or_comm, or_and_right, exists_or, eq_comm]

/-- A line does not fit into the buffer of the scanner. -/
def TooLong (ls : List KallsymsLine) : Prop := ∃ l ∈ ls, maxScanTokenSize ≤ byteLength l.render

/-- **What is loaded**: the symbols of all lines, unless one of the lines is too long. -/
theorem loadKernelSymbolsFromKallsyms_eq
    (h : fs.openText "/proc/kallsyms" = .ok ⟨kallsymsText ls, none⟩) :
    (TooLong ls ∧
        loadKernelSymbolsFromKallsyms fs = .error "bufio.Scanner: token too long") ∨
      (¬ TooLong ls ∧ loadKernelSymbolsFromKallsyms fs = .ok (kallsymsOf ls)) := by
  have htext : kallsymsText ls = (ls.map KallsymsLine.render).flatMap fun l => l ++ ['\n'] := by
    rw [List.flatMap_map]
    rfl
  have hnot : ∀ c, isSpace c = true → c ≠ ' ' → c ≠ '\t' →
      ∀ l ∈ ls.map KallsymsLine.render, c ∉ l := by
    intro c hspace hblank htab
    exact List.forall_mem_map.mpr fun l _ => l.not_mem_render hspace hblank htab
  have hend := hnot '\n' (by decide) (by decide) (by decide)
  unfold loadKernelSymbolsFromKallsyms Reader.scanErr Reader.scan
  rw [h]
  dsimp only
  rw [htext]
  by_cases hlong : TooLong ls
  · have htoo := (scanLines_flatMap_tooLong hend).mpr (by simpa [TooLong] using hlong)
    exact Or.inl ⟨hlong, by rw [if_pos htoo]⟩
  · have hfit : ∀ l ∈ ls.map KallsymsLine.render, byteLength l < maxScanTokenSize :=
      List.forall_mem_map.mpr fun l hl => Nat.not_le.mp fun hle => hlong ⟨l, hl, hle⟩
    rw [scanLines_flatMap hend (hnot '\r' (by decide) (by decide) (by decide)) hfit]
    refine Or.inr ⟨hlong, ?_⟩
    simp [kallsymsOf, List.filterMap_map, KallsymsLine.parse_render]

end Loaded

/-! ### The resolvers -/

/-- What the machine answers: its files, which paths there are, and what `uname -r` prints,
`none` when it fails. -/
structure Host extends FileSystem where
  stat : String → Bool
  uname : Option String

/-- `findVmlinux`. -/
def findVmlinux (host : Host) : String :=
  match host.uname with
  | none => ""
  | some output =>
      let kernelVersion := trimSpace output
      let paths :=
        ["/usr/lib/debug/boot/vmlinux-" ++ kernelVersion,
          "/usr/lib/debug/lib/modules/" ++ kernelVersion ++ "/vmlinux",
          "/lib/modules/" ++ kernelVersion ++ "/build/vmlinux",
          "/boot/vmlinux-" ++ kernelVersion]
      (paths.find? host.stat).getD ""

/-- `NewKernelSymbolResolver`. -/
def newKernelSymbolResolver (host : Host) (vmlinuxPath : String) :
    Except String KernelSymbolResolver :=
  match loadKernelSymbolsFromKallsyms host.toFileSystem with
  | .error err => .error ("failed to load kallsyms: " ++ err)
  | .ok kallsyms =>
      if vmlinuxPath ≠ "" ∧ host.stat vmlinuxPath = false then .ok ⟨kallsyms, ""⟩
      else .ok ⟨kallsyms, vmlinuxPath⟩

/-- The one mapping of `NewKernelResolverFromKallsyms`. -/
def wholeSpace (path : String) (symbols : Finmap fun _ : U64 => String) : ProcMapEntry where
  start := 0
  endAddr := ~~~0
  offset := 0
  path := path
  symbols := symbols

/-- `NewKernelResolverFromKallsyms`. -/
def newKernelResolverFromKallsyms (fs : FileSystem) : Except String SymbolResolver :=
  match loadKernelSymbolsFromKallsyms fs with
  | .error err => .error err
  | .ok syms => .ok ⟨[wholeSpace "/proc/kallsyms" syms]⟩

/-- A `vmlinux` that is found is there. -/
theorem stat_findVmlinux (host : Host) (h : findVmlinux host ≠ "") :
    host.stat (findVmlinux host) = true := by
  revert h
  unfold findVmlinux
  split
  case h_1 => simp
  case h_2 output huname =>
    dsimp only
    generalize hpaths : List.cons ("/usr/lib/debug/boot/vmlinux-" ++ trimSpace output) _ = paths
    cases hfind : paths.find? host.stat with
    | none => simp
    | some path => exact fun _ => List.find?_some hfind

/-- The resolver of a found `vmlinux` keeps it. -/
theorem newKernelSymbolResolver_findVmlinux (host : Host) :
    newKernelSymbolResolver host (findVmlinux host) =
      match loadKernelSymbolsFromKallsyms host.toFileSystem with
      | .error err => .error ("failed to load kallsyms: " ++ err)
      | .ok kallsyms => .ok ⟨kallsyms, findVmlinux host⟩ := by
  have hstat : ¬ (findVmlinux host ≠ "" ∧ host.stat (findVmlinux host) = false) := by
    rintro ⟨hne, hfalse⟩
    simp [stat_findVmlinux host hne] at hfalse
  unfold newKernelSymbolResolver
  split
  · rfl
  · rw [if_neg hstat]

/-! ### The search -/

/-- `l` is the last of the lines with the greatest address in `1 .. pc`. -/
structure NearestLine (ls : List KallsymsLine) (pc : U64) (l : KallsymsLine) : Prop where
  last : ∃ pre post, ls = pre ++ l :: post ∧ ∀ l' ∈ post, l'.addr ≠ l.addr
  pos : 1 ≤ l.addr
  le : l.addr ≤ pc
  greatest : ∀ l' ∈ ls, l'.addr ≤ pc → l'.addr ≤ l.addr

section Search

variable {ls : List KallsymsLine} {pc : U64}

theorem isClosest_kallsymsOf {addr : U64} {name : String} :
    IsClosest (kallsymsOf ls) pc addr name ↔
      ∃ l, NearestLine ls pc l ∧ l.addr = addr ∧ l.name = name := by
  constructor
  · intro h
    obtain ⟨pre, l, post, hsplit, rfl, rfl, hpost⟩ := lookup_kallsymsOf.mp h.lookup
    refine ⟨l, ⟨⟨pre, post, hsplit, hpost⟩, h.pos, h.le, fun l' hl' hle => ?_⟩, rfl, rfl⟩
    by_cases hpos : 1 ≤ l'.addr
    · exact h.greatest l'.addr (mem_kallsymsOf.mpr ⟨l', hl', rfl⟩) hpos hle
    · -- address 0
      have hzero : ¬ (0 : U64) < l'.addr := fun hlt => hpos (one_le_iff.mpr hlt)
      exact BitVec.le_trans (BitVec.not_lt.mp hzero) (BitVec.le_def.mpr (Nat.zero_le _))
  · rintro ⟨l, h, rfl, rfl⟩
    obtain ⟨pre, post, hsplit, hpost⟩ := h.last
    refine ⟨lookup_kallsymsOf.mpr ⟨pre, l, post, hsplit, rfl, rfl, hpost⟩, h.pos, h.le, ?_⟩
    intro a ha _ hle
    obtain ⟨l', hl', rfl⟩ := mem_kallsymsOf.mp ha
    exact h.greatest l' hl' hle

theorem NearestLine.mem {l : KallsymsLine} (h : NearestLine ls pc l) : l ∈ ls := by
  obtain ⟨pre, post, hsplit, -⟩ := h.last
  simp [hsplit]

/-- Unless every line is above the address or at 0, there is a nearest one. -/
theorem exists_nearestLine (order : Enumeration (kallsymsOf ls)) :
    (∃ l, NearestLine ls pc l) ↔ ∃ l ∈ ls, 1 ≤ l.addr ∧ l.addr ≤ pc := by
  constructor
  · rintro ⟨l, h⟩
    exact ⟨l, h.mem, h.pos, h.le⟩
  · rintro ⟨l, hl, hpos, hle⟩
    rcases closestSymbol_cases order pc with ⟨-, habsent⟩ | ⟨addr, name, -, hclosest⟩
    · exact absurd hle (habsent _ (mem_kallsymsOf.mpr ⟨l, hl, rfl⟩) hpos)
    · obtain ⟨l, h, -⟩ := isClosest_kallsymsOf.mp hclosest
      exact ⟨l, h⟩

/-- **What the resolver names** on a machine with these symbols: the nearest line. -/
theorem kernelResolve_kallsyms {tools : Tools} {r : KernelSymbolResolver}
    (hr : r.kallsyms = kallsymsOf ls) (order : Enumeration r.kallsyms) :
    (∃ l, NearestLine ls pc l ∧
        r.resolve tools order pc = .ok (r.report tools pc l.addr l.name)) ∨
      ((∀ l ∈ ls, 1 ≤ l.addr → ¬ l.addr ≤ pc) ∧
        r.resolve tools order pc = .error ("symbol not found for address " ++ hex pc)) := by
  have hclosest : ∀ addr name, IsClosest r.kallsyms pc addr name ↔
      ∃ l, NearestLine ls pc l ∧ l.addr = addr ∧ l.name = name := fun addr name => by
    rw [hr]
    exact isClosest_kallsymsOf
  by_cases h : ∃ l, NearestLine ls pc l
  · obtain ⟨l, hl⟩ := h
    have hfound := (hclosest l.addr l.name).mpr ⟨l, hl, rfl, rfl⟩
    exact Or.inl ⟨l, hl, (kernelResolve_eq_ok_iff order).mpr ⟨_, _, hfound, l.name_ne, rfl⟩⟩
  · refine Or.inr ⟨fun l hl hpos hle => ?_, (kernelResolve_eq_error_iff order).mpr ⟨?_, rfl⟩⟩
    · exact h ((exists_nearestLine (hr ▸ order)).mpr ⟨l, hl, hpos, hle⟩)
    · intro addr name hfound
      obtain ⟨l, hl, -⟩ := (hclosest addr name).mp hfound
      exact absurd ⟨l, hl⟩ h

end Search

/-! ### The two resolvers -/

theorem wholeSpace_contains {path : String} {symbols : Finmap fun _ : U64 => String} {pc : U64} :
    (wholeSpace path symbols).Contains pc ↔ pc ≠ ~~~0 := by
  unfold ProcMapEntry.Contains wholeSpace
  simp only [BitVec.le_def, BitVec.lt_def, ne_eq, ← BitVec.toNat_inj]
  have hlt := pc.isLt
  have hones : (~~~0 : U64).toNat = 2 ^ 64 - 1 := by decide
  rw [hones]
  simp
  omega

@[simp] theorem wholeSpace_virtualAddr {path : String} {symbols : Finmap fun _ : U64 => String}
    {pc : U64} : (wholeSpace path symbols).virtualAddr pc = pc := by
  simp [ProcMapEntry.virtualAddr, wholeSpace]

/-- What the resolvers hold, if both are made on one machine. -/
theorem kallsyms_of_resolvers {host : Host} {path : String} {r : SymbolResolver}
    {k : KernelSymbolResolver} (hr : newKernelResolverFromKallsyms host.toFileSystem = .ok r)
    (hk : newKernelSymbolResolver host path = .ok k) :
    r.mappings = [wholeSpace "/proc/kallsyms" k.kallsyms] := by
  unfold newKernelResolverFromKallsyms at hr
  unfold newKernelSymbolResolver at hk
  cases hload : loadKernelSymbolsFromKallsyms host.toFileSystem with
  | error err => simp [hload] at hr
  | ok syms =>
      simp only [hload, Except.ok.injEq] at hr hk
      subst hr
      split at hk <;> cases hk <;> rfl

/-- What the search over the one mapping finds. -/
theorem findSymbol_wholeSpace {r : SymbolResolver} {path : String}
    {symbols : Finmap fun _ : U64 => String} (hr : r.mappings = [wholeSpace path symbols])
    (passes : r.Passes) {pc : U64} {s : FoundSymbol} :
    r.findSymbol passes pc = some s ↔ pc ≠ ~~~0 ∧ s.mapping = wholeSpace path symbols ∧
      IsClosest symbols pc s.addr s.name ∧ s.name ≠ "" := by
  rw [findSymbol_eq_some_iff]
  constructor
  · rintro ⟨pre, post, hsplit, -, hcontains, hclosest, hname⟩
    have hmapping : s.mapping = wholeSpace path symbols := by
      have hmem : s.mapping ∈ r.mappings := by simp [hsplit]
      simpa [hr] using hmem
    rw [hmapping] at hcontains hclosest
    rw [wholeSpace_virtualAddr] at hclosest
    exact ⟨wholeSpace_contains.mp hcontains, hmapping, hclosest, hname⟩
  · rintro ⟨hpc, hmapping, hclosest, hname⟩
    refine ⟨[], [], by rw [hr, hmapping]; rfl, by simp, ?_, ?_, hname⟩
    · rw [hmapping]
      exact wholeSpace_contains.mpr hpc
    · rw [hmapping, wholeSpace_virtualAddr]
      exact hclosest

/-- **The two kernel resolvers find the same symbols**, with one exception: the range of the
mapping of `NewKernelResolverFromKallsyms` ends in front of the last address, so it finds
nothing for that one. -/
theorem kernel_resolvers_agree (host : Host) (path : String) (tools : Tools) (r : SymbolResolver)
    (k : KernelSymbolResolver) (hr : newKernelResolverFromKallsyms host.toFileSystem = .ok r)
    (hk : newKernelSymbolResolver host path = .ok k) (passes : r.Passes)
    (order : Enumeration k.kallsyms) (pc : U64) :
    (∀ s, r.findSymbol passes pc = some s →
        k.resolve tools order pc = .ok (k.report tools pc s.addr s.name)) ∧
      (pc ≠ ~~~0 → r.findSymbol passes pc = none →
        k.resolve tools order pc = .error ("symbol not found for address " ++ hex pc)) ∧
      (pc = ~~~0 → r.resolve tools passes pc =
        .error ("symbol not found for address " ++ hex pc)) := by
  have hmappings := kallsyms_of_resolvers hr hk
  refine ⟨fun s hs => ?_, fun hpc hnone => ?_, fun hpc => ?_⟩
  · obtain ⟨-, -, hclosest, hname⟩ := (findSymbol_wholeSpace hmappings passes).mp hs
    exact (kernelResolve_eq_ok_iff order).mpr ⟨_, _, hclosest, hname, rfl⟩
  · refine (kernelResolve_eq_error_iff order).mpr ⟨fun addr name hclosest => ?_, rfl⟩
    by_contra hname
    have hfound := (findSymbol_wholeSpace hmappings passes (s := ⟨wholeSpace _ _, addr, name⟩)).mpr
      ⟨hpc, rfl, hclosest, hname⟩
    simp [hnone] at hfound
  · have hnone : r.findSymbol passes pc = none :=
      Option.eq_none_iff_forall_ne_some.mpr fun s hs =>
        ((findSymbol_wholeSpace hmappings passes).mp hs).1 hpc
    unfold SymbolResolver.resolve
    rw [hnone]

/-- A symbol of the kernel image. -/
def textSymbol (addr : U64) (name : String) (hne : name ≠ "")
    (hword : ∀ c ∈ name.toList, isSpace c = false) : KallsymsLine where
  addr := addr
  type := 'T'
  type_word := by decide
  name := name
  name_ne := hne
  name_word := hword
  moduleName := none
  moduleName_word := by simp

def scheduleSymbol : KallsymsLine :=
  textSymbol 0xffffffff81000000 "schedule" (by decide) (forall_mem_of_all (by decide))

/-- A machine with these symbols, and without a `vmlinux`. -/
def hostOf (ls : List KallsymsLine) : Host where
  openText _ := .ok ⟨kallsymsText ls, none⟩
  openElf _ := none
  stat _ := false
  uname := some "6.1.0\n"

theorem hostOf_not_tooLong : ¬ TooLong [scheduleSymbol] := by
  have hlength : byteLength scheduleSymbol.render = 27 := by decide
  simp [TooLong, hlength, maxScanTokenSize]

theorem load_hostOf :
    loadKernelSymbolsFromKallsyms (hostOf [scheduleSymbol]).toFileSystem =
      .ok (kallsymsOf [scheduleSymbol]) := by
  rcases @loadKernelSymbolsFromKallsyms_eq (hostOf [scheduleSymbol]).toFileSystem _ rfl with
    ⟨hlong, -⟩ | ⟨-, hload⟩
  · exact absurd hlong hostOf_not_tooLong
  · exact hload

/-- Some orders for a call of `Resolve`. -/
noncomputable def SymbolResolver.somePasses (r : SymbolResolver) : r.Passes :=
  ⟨r.mappings.map fun m => ⟨m, .ofMap m.symbols⟩, by simp [Function.comp_def]⟩

/-- The last address has no symbol for the resolver with the mapping. -/
theorem kernel_resolvers_agree_last :
    SymbolResolver.resolve ⟨fun _ => none, fun _ _ => none⟩
        (SymbolResolver.somePasses
          ⟨[wholeSpace "/proc/kallsyms" (kallsymsOf [scheduleSymbol])]⟩) (~~~0) =
      .error "symbol not found for address 0xffffffffffffffff" := by
  have hr : newKernelResolverFromKallsyms (hostOf [scheduleSymbol]).toFileSystem =
      .ok ⟨[wholeSpace "/proc/kallsyms" (kallsymsOf [scheduleSymbol])]⟩ := by
    unfold newKernelResolverFromKallsyms
    rw [load_hostOf]
  have hk : newKernelSymbolResolver (hostOf [scheduleSymbol]) "" =
      .ok ⟨kallsymsOf [scheduleSymbol], ""⟩ := by
    unfold newKernelSymbolResolver
    rw [load_hostOf]
    rfl
  exact (kernel_resolvers_agree (hostOf [scheduleSymbol]) "" ⟨fun _ => none, fun _ _ => none⟩ _ _
    hr hk (SymbolResolver.somePasses _) (.ofMap _) (~~~0)).2.2 rfl

end EbpfMemleak
