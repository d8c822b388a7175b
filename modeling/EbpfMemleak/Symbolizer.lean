import EbpfMemleak.Info
import EbpfMemleak.Lib.Enumeration

/-!
# EbpfMemleak.Symbolizer

The two symbol resolvers (`userspace.go`, `kernelspace.go`): from a program counter
to the text that is printed for a frame.

Both search a Go map for the symbol with the greatest address up to a bound, in one
pass whose candidate starts as address 0 and the empty name; the empty name at the
end stands for "not found". A Go map is a `Finmap`, and the order in which a `range`
loop visits it is an `Enumeration`, chosen anew for every loop.

The external programs `c++filt` and `addr2line` are parameters (`Tools`).

`resolve_finds_closest` says what the resolvers report: the symbol of greatest
positive address, of the first mapping that has one with a name, whatever the order
of the passes.
-/

namespace EbpfMemleak

/-! ### Texts -/

/-- `unicode.IsSpace`. -/
def isSpace (c : Char) : Bool :=
  let n := c.toNat
  (9 ≤ n && n ≤ 13) || n == 0x20 || n == 0x85 || n == 0xA0 || n == 0x1680 ||
    (0x2000 ≤ n && n ≤ 0x200A) || n == 0x2028 || n == 0x2029 || n == 0x202F || n == 0x205F ||
    n == 0x3000

/-- `strings.TrimSpace`. -/
def trimSpace (s : String) : String :=
  String.ofList ((s.toList.dropWhile isSpace).reverse.dropWhile isSpace).reverse

/-- `fmt.Sprintf("0x%x", v)`. -/
def hex (v : U64) : String := "0x" ++ String.ofList (Nat.toDigits 16 v.toNat)

/-- The programs the resolvers run: what they print, `none` when they fail. -/
structure Tools where
  /-- `c++filt sym`. -/
  cxxfilt : String → Option String
  /-- `addr2line -e path addr`. -/
  addr2line : String → String → Option String

/-! ### `loadSymbols` -/

/-- The fields of an `elf.Symbol` that are read. -/
structure ElfSymbol where
  name : String
  value : U64
  size : U64
  deriving Repr, DecidableEq

/-- A symbol `collectSymbols` does not skip. -/
def ElfSymbol.Kept (sym : ElfSymbol) : Prop := ¬ (sym.value = 0 ∨ sym.size = 0)

instance (sym : ElfSymbol) : Decidable sym.Kept := inferInstanceAs (Decidable (¬ _))

/-- `collectSymbols`. -/
def collectSymbols (symbols : Finmap fun _ : U64 => String) (syms : List ElfSymbol) :
    Finmap fun _ : U64 => String :=
  syms.foldl (fun symbols sym =>
    if sym.value = 0 ∨ sym.size = 0 then symbols else symbols.insert sym.value sym.name) symbols

/-- `loadSymbols` of a file that parses: the symbol table and the dynamic symbol table,
`none` where the file has none. -/
def loadSymbols (syms dynSyms : Option (List ElfSymbol)) : Finmap fun _ : U64 => String :=
  collectSymbols (collectSymbols ∅ (syms.getD [])) (dynSyms.getD [])

theorem collectSymbols_append (symbols : Finmap fun _ : U64 => String)
    (syms syms' : List ElfSymbol) : collectSymbols symbols (syms ++ syms') =
      collectSymbols (collectSymbols symbols syms) syms' := List.foldl_append

/-- Where symbols of one address have one name, a collected name is the name of a kept
symbol. -/
theorem lookup_collectSymbols {syms : List ElfSymbol}
    (hnames : ∀ f ∈ syms, ∀ g ∈ syms, f.Kept → g.Kept → f.value = g.value → f.name = g.name)
    {addr : U64} {name : String} :
    (collectSymbols ∅ syms).lookup addr = some name ↔
      ∃ f ∈ syms, f.Kept ∧ f.value = addr ∧ f.name = name := by
  -- from the back: the last symbol of an address is the one that stays
  induction syms using List.reverseRecOn with
  | nil => simp [collectSymbols]
  | append_singleton syms sym ih =>
      have ih := ih fun f hf g hg => hnames f (List.mem_append_left _ hf) g
        (List.mem_append_left _ hg)
      have hstep : collectSymbols ∅ (syms ++ [sym]) =
          if sym.Kept then (collectSymbols ∅ syms).insert sym.value sym.name
          else collectSymbols ∅ syms := by
        rw [collectSymbols_append]
        by_cases hskip : sym.value = 0 ∨ sym.size = 0
        · exact (if_pos hskip).trans (if_neg (not_not.mpr hskip)).symm
        · exact (if_neg hskip).trans (if_pos hskip).symm
      have hsym : sym ∈ syms ++ [sym] := List.mem_append_right _ List.mem_cons_self
      have hsplit : (∃ f ∈ syms ++ [sym], f.Kept ∧ f.value = addr ∧ f.name = name) ↔
          (∃ f ∈ syms, f.Kept ∧ f.value = addr ∧ f.name = name) ∨
            (sym.Kept ∧ sym.value = addr ∧ sym.name = name) := by
        simp [or_and_right, exists_or]
      rw [hstep, hsplit]
      by_cases hkept : sym.Kept
      · rw [if_pos hkept]
        by_cases haddr : addr = sym.value
        · rw [haddr, Finmap.lookup_insert, Option.some_inj]
          constructor
          · exact fun hname => Or.inr ⟨hkept, rfl, hname⟩
          · rintro (⟨f, hf, hfk, hfv, rfl⟩ | ⟨-, -, hname⟩)
            · exact hnames sym hsym f (List.mem_append_left _ hf) hkept hfk hfv.symm
            · exact hname
        · rw [Finmap.lookup_insert_of_ne _ haddr, ih]
          simp [Ne.symm haddr]
      · rw [if_neg hkept, ih]
        simp [hkept]

/-! ### The search -/

/-- The loop both resolvers share: `closestAddr` and `closestSym` after a pass over the
symbols in the given order. -/
def closestSymbol (order : List (U64 × String)) (virtualAddr : U64) : U64 × String :=
  order.foldl (fun closest s =>
    if s.1 ≤ virtualAddr ∧ closest.1 < s.1 then s else closest) (0, "")

/-- `name` is the symbol of greatest address in `1 .. bound`. -/
structure IsClosest (symbols : Finmap fun _ : U64 => String) (bound addr : U64) (name : String) :
    Prop where
  lookup : symbols.lookup addr = some name
  pos : 1 ≤ addr
  le : addr ≤ bound
  greatest : ∀ a ∈ symbols, 1 ≤ a → a ≤ bound → a ≤ addr

theorem IsClosest.unique {symbols : Finmap fun _ : U64 => String} {bound addr addr' : U64}
    {name name' : String} (h : IsClosest symbols bound addr name)
    (h' : IsClosest symbols bound addr' name') : addr = addr' ∧ name = name' := by
  have hle := h.greatest addr' (Finmap.mem_of_lookup_eq_some h'.lookup) h'.pos h'.le
  have hge := h'.greatest addr (Finmap.mem_of_lookup_eq_some h.lookup) h.pos h.le
  obtain rfl := BitVec.le_antisymm hge hle
  exact ⟨rfl, Option.some.inj (h.lookup.symm.trans h'.lookup)⟩

theorem one_le_iff {a : U64} : 1 ≤ a ↔ (0 : U64) < a := by
  rw [BitVec.le_def, BitVec.lt_def]
  exact Iff.rfl

theorem ElfSymbol.Kept.one_le {sym : ElfSymbol} (h : sym.Kept) : 1 ≤ sym.value := by
  have hvalue : sym.value ≠ 0 := fun hz => h (Or.inl hz)
  exact BitVec.le_def.mpr (BitVec.toNat_pos_of_ne_zero hvalue)

/-- **What the pass finds**, in any order: nothing, if no symbol has an address in
`1 .. bound`, and the symbol of greatest address otherwise. -/
theorem closestSymbol_cases {symbols : Finmap fun _ : U64 => String} (e : Enumeration symbols)
    (bound : U64) :
    (closestSymbol e.toList bound = (0, "") ∧ ∀ a ∈ symbols, 1 ≤ a → ¬ a ≤ bound) ∨
      ∃ addr name, closestSymbol e.toList bound = (addr, name) ∧
        IsClosest symbols bound addr name := by
  obtain ⟨hfound, hmax⟩ := greatest_spec (fun s : U64 × String => s.1 ≤ bound)
    (fun s => s.1.toNat) (0, "") e.toList
  have hpass : greatest (fun s : U64 × String => s.1 ≤ bound) (fun s => s.1.toNat) (0, "")
      e.toList = closestSymbol e.toList bound := rfl
  rw [hpass] at hfound hmax
  have hall : ∀ a ∈ symbols, a ≤ bound → a ≤ (closestSymbol e.toList bound).1 := by
    intro a ha hle
    obtain ⟨name, hname⟩ := Finmap.mem_iff.mp ha
    exact BitVec.le_def.mpr (hmax (a, name) (e.mem_iff.mpr hname) hle)
  rcases hfound with heq | ⟨hmem, hle, hpos⟩
  · refine Or.inl ⟨heq, fun a ha h1 hle => ?_⟩
    have hzero := hall a ha hle
    rw [heq] at hzero
    exact absurd (one_le_iff.mp h1) (BitVec.not_lt.mpr hzero)
  · exact Or.inr ⟨_, _, rfl, e.mem_iff.mp hmem, one_le_iff.mpr (BitVec.lt_def.mpr hpos), hle,
      fun a ha _ hle => hall a ha hle⟩

/-- A nonempty name at the end of the pass is the name of the closest symbol. -/
theorem closestSymbol_eq_iff {symbols : Finmap fun _ : U64 => String} (e : Enumeration symbols)
    {bound addr : U64} {name : String} (hname : name ≠ "") :
    closestSymbol e.toList bound = (addr, name) ↔ IsClosest symbols bound addr name := by
  rcases closestSymbol_cases e bound with ⟨hnone, habsent⟩ | ⟨addr', name', hfound, hclosest⟩
  · rw [hnone]
    refine iff_of_false (fun h => hname (Prod.mk.inj h).2.symm) fun h => ?_
    exact habsent addr (Finmap.mem_of_lookup_eq_some h.lookup) h.pos h.le
  · rw [hfound, Prod.mk.injEq]
    constructor
    · rintro ⟨rfl, rfl⟩
      exact hclosest
    · exact hclosest.unique

/-! ### `SymbolResolver` -/

/-- `ProcMapEntry`: an executable mapping of a file, with the symbols of the file. -/
structure ProcMapEntry where
  start : U64
  endAddr : U64
  offset : U64
  path : String
  symbols : Finmap fun _ : U64 => String

/-- `SymbolResolver`. -/
structure SymbolResolver where
  mappings : List ProcMapEntry

/-- A mapping with the order in which one call visits its symbols. -/
structure MappingPass where
  mapping : ProcMapEntry
  order : Enumeration mapping.symbols

/-- The orders one call of `Resolve` meets: one for each mapping. -/
def SymbolResolver.Passes (r : SymbolResolver) : Type :=
  { passes : List MappingPass // passes.map MappingPass.mapping = r.mappings }

/-- `pc >= m.start && pc < m.end`. -/
def ProcMapEntry.Contains (m : ProcMapEntry) (pc : U64) : Prop := m.start ≤ pc ∧ pc < m.endAddr

instance (m : ProcMapEntry) (pc : U64) : Decidable (m.Contains pc) :=
  inferInstanceAs (Decidable (_ ∧ _))

/-- `virtualAddr := pc - m.start + m.offset`, in `uint64` arithmetic. -/
def ProcMapEntry.virtualAddr (m : ProcMapEntry) (pc : U64) : U64 := pc - m.start + m.offset

/-- What a search ends with. -/
structure FoundSymbol where
  mapping : ProcMapEntry
  addr : U64
  name : String

/-- The closest symbol of a mapping up to an address, unless it is without a name. -/
def MappingPass.search (p : MappingPass) (virtualAddr : U64) : Option FoundSymbol :=
  let closest := closestSymbol p.order.toList virtualAddr
  if closest.2 ≠ "" then some ⟨p.mapping, closest.1, closest.2⟩ else none

/-- The body of the loop over the mappings, up to the test for a name. -/
def MappingPass.find (p : MappingPass) (pc : U64) : Option FoundSymbol :=
  if p.mapping.Contains pc then p.search (p.mapping.virtualAddr pc) else none

/-- The loop over the mappings: the first one that yields a name ends it. -/
def SymbolResolver.findSymbol {r : SymbolResolver} (passes : r.Passes) (pc : U64) :
    Option FoundSymbol :=
  passes.val.findSome? fun p => p.find pc

/-- `demangleSymbol`. -/
def demangleSymbol (tools : Tools) (sym : String) : String :=
  match tools.cxxfilt sym with
  | none => sym
  | some output => trimSpace output

/-- The source line of a frame, asked for at `virtualAddr - 1`. -/
def fileLine (tools : Tools) (m : ProcMapEntry) (virtualAddr : U64) : String :=
  let adjustedAddr := virtualAddr - 1
  let line :=
    match tools.addr2line m.path (hex adjustedAddr) with
    | some output => trimSpace output
    | none => "??:?"
  if line = "??:?" ∨ line = "" then m.path else line

/-- The text of a frame. -/
def FoundSymbol.report (tools : Tools) (s : FoundSymbol) (pc : U64) : String :=
  demangleSymbol tools s.name ++ " (" ++ fileLine tools s.mapping (s.mapping.virtualAddr pc) ++ ")"

/-- `SymbolResolver.Resolve`. -/
def SymbolResolver.resolve (tools : Tools) {r : SymbolResolver} (passes : r.Passes) (pc : U64) :
    Except String String :=
  match r.findSymbol passes pc with
  | none => .error ("symbol not found for address " ++ hex pc)
  | some s => .ok (s.report tools pc)

/-- The mapping contains `pc`, and its closest symbol up to the translated address has a
name. -/
def FoundSymbol.Qualifies (s : FoundSymbol) (pc : U64) : Prop :=
  s.mapping.Contains pc ∧ IsClosest s.mapping.symbols (s.mapping.virtualAddr pc) s.addr s.name ∧
    s.name ≠ ""

theorem search_eq_some_iff {p : MappingPass} {virtualAddr : U64} {s : FoundSymbol} :
    p.search virtualAddr = some s ↔ s.mapping = p.mapping ∧
      IsClosest p.mapping.symbols virtualAddr s.addr s.name ∧ s.name ≠ "" := by
  obtain ⟨m, addr, name⟩ := s
  unfold MappingPass.search
  dsimp only
  constructor
  · intro h
    split at h
    case isFalse => cases h
    case isTrue hname =>
      cases Option.some.inj h
      exact ⟨rfl, (closestSymbol_eq_iff p.order hname).mp rfl, hname⟩
  · rintro ⟨rfl, hclosest, hname⟩
    rw [(closestSymbol_eq_iff p.order hname).mpr hclosest, if_pos hname]

theorem find_eq_some_iff {p : MappingPass} {pc : U64} {s : FoundSymbol} :
    p.find pc = some s ↔ s.mapping = p.mapping ∧ s.Qualifies pc := by
  unfold MappingPass.find FoundSymbol.Qualifies
  split
  case isTrue hpc =>
    rw [search_eq_some_iff]
    constructor
    · rintro ⟨hm, hclosest⟩
      rw [hm]
      exact ⟨rfl, hpc, hclosest⟩
    · rintro ⟨hm, -, hclosest⟩
      rw [hm] at hclosest
      exact ⟨hm, hclosest⟩
  case isFalse hpc =>
    refine iff_of_false (fun h => nomatch h) ?_
    rintro ⟨hm, hcontains, -⟩
    exact hpc (hm ▸ hcontains)

/-- `s` comes from the first mapping that qualifies. -/
def SymbolResolver.FirstFound (r : SymbolResolver) (pc : U64) (s : FoundSymbol) : Prop :=
  ∃ pre post, r.mappings = pre ++ s.mapping :: post ∧
    (∀ s' : FoundSymbol, s'.mapping ∈ pre → ¬ s'.Qualifies pc) ∧ s.Qualifies pc

theorem find_eq_none_iff {p : MappingPass} {pc : U64} :
    p.find pc = none ↔ ∀ s : FoundSymbol, s.mapping = p.mapping → ¬ s.Qualifies pc := by
  rw [Option.eq_none_iff_forall_ne_some]
  refine forall_congr' fun s => ?_
  rw [ne_eq, find_eq_some_iff, not_and]

theorem findSymbol_eq_some_iff {r : SymbolResolver} (passes : r.Passes) {pc : U64}
    {s : FoundSymbol} : r.findSymbol passes pc = some s ↔ r.FirstFound pc s := by
  obtain ⟨mappings⟩ := r
  obtain ⟨passes, rfl : _ = mappings⟩ := passes
  refine List.findSome?_eq_some_iff.trans ?_
  unfold SymbolResolver.FirstFound
  constructor
  · rintro ⟨pre, p, post, rfl, hfind, hpre⟩
    obtain ⟨hm, hqual⟩ := find_eq_some_iff.mp hfind
    refine ⟨pre.map MappingPass.mapping, post.map MappingPass.mapping, ?_, ?_, hqual⟩
    · rw [List.map_append, List.map_cons, hm]
    · intro s' hs'
      obtain ⟨q, hq, hmq⟩ := List.mem_map.mp hs'
      exact find_eq_none_iff.mp (hpre q hq) s' hmq.symm
  · rintro ⟨pre, post, hsplit, hpre, hqual⟩
    obtain ⟨ps, rest, rfl, rfl, hrest⟩ := List.map_eq_append_iff.mp hsplit
    obtain ⟨p, qs, rfl, hp, rfl⟩ := List.map_eq_cons_iff.mp hrest
    refine ⟨ps, p, qs, rfl, find_eq_some_iff.mpr ⟨hp.symm, hqual⟩, fun q hq => ?_⟩
    exact find_eq_none_iff.mpr fun s' hs' => hpre s' (hs' ▸ List.mem_map_of_mem hq)

theorem findSymbol_eq_none_iff {r : SymbolResolver} (passes : r.Passes) {pc : U64} :
    r.findSymbol passes pc = none ↔
      ∀ s : FoundSymbol, s.mapping ∈ r.mappings → ¬ s.Qualifies pc := by
  obtain ⟨mappings⟩ := r
  obtain ⟨passes, rfl : _ = mappings⟩ := passes
  refine List.findSome?_eq_none_iff.trans ?_
  constructor
  · intro h s hs
    obtain ⟨p, hp, hm⟩ := List.mem_map.mp hs
    exact find_eq_none_iff.mp (h p hp) s hm.symm
  · exact fun h p hp => find_eq_none_iff.mpr fun s hs => h s (hs ▸ List.mem_map_of_mem hp)

/-- The orders of the passes do not matter. -/
theorem findSymbol_eq {r : SymbolResolver} (passes passes' : r.Passes) (pc : U64) :
    r.findSymbol passes pc = r.findSymbol passes' pc := by
  refine Option.ext fun s => ?_
  rw [findSymbol_eq_some_iff, findSymbol_eq_some_iff]

theorem resolve_eq_ok_iff {tools : Tools} {r : SymbolResolver} (passes : r.Passes) {pc : U64}
    {out : String} : r.resolve tools passes pc = .ok out ↔
      ∃ s, r.FirstFound pc s ∧ out = s.report tools pc := by
  simp only [← findSymbol_eq_some_iff passes]
  unfold SymbolResolver.resolve
  cases r.findSymbol passes pc with
  | none => simp
  | some s => simp [eq_comm]

theorem resolve_eq_error_iff {tools : Tools} {r : SymbolResolver} (passes : r.Passes) {pc : U64}
    {msg : String} : r.resolve tools passes pc = .error msg ↔
      (∀ s : FoundSymbol, s.mapping ∈ r.mappings → ¬ s.Qualifies pc) ∧
        msg = "symbol not found for address " ++ hex pc := by
  rw [← findSymbol_eq_none_iff passes]
  unfold SymbolResolver.resolve
  cases r.findSymbol passes pc with
  | none => simp [eq_comm]
  | some s => simp

theorem FoundSymbol.Qualifies.one_le {s : FoundSymbol} {pc : U64} (h : s.Qualifies pc) :
    1 ≤ s.mapping.virtualAddr pc :=
  BitVec.le_trans h.2.1.pos h.2.1.le

theorem toNat_sub_one {a : U64} (h : 1 ≤ a) : (a - 1).toNat + 1 = a.toNat := by
  rw [BitVec.toNat_sub_of_le h]
  exact Nat.sub_add_cancel (BitVec.le_def.mp h)

/-! ### `KernelSymbolResolver` -/

/-- `KernelSymbolResolver`. -/
structure KernelSymbolResolver where
  kallsyms : Finmap fun _ : U64 => String
  vmlinuxPath : String

/-- The source line of a kernel address, if there is a `vmlinux` and it has one. -/
def KernelSymbolResolver.fileLine (tools : Tools) (r : KernelSymbolResolver) (addr : U64) :
    Option String :=
  if r.vmlinuxPath ≠ "" then
    match tools.addr2line r.vmlinuxPath (hex addr) with
    | none => none
    | some output =>
        let line := trimSpace output
        if line ≠ "??:?" ∧ line ≠ "??:0" ∧ line ≠ "" then some line else none
  else none

/-- The text of a kernel frame: with the source line, or else with the offset into the
symbol. -/
def KernelSymbolResolver.report (tools : Tools) (r : KernelSymbolResolver) (addr : U64)
    (closestAddr : U64) (closestSym : String) : String :=
  match r.fileLine tools addr with
  | some line => closestSym ++ " (" ++ line ++ ")"
  | none =>
      if addr ≠ closestAddr then
        let offset := addr - closestAddr
        closestSym ++ "+" ++ hex offset
      else closestSym

/-- `KernelSymbolResolver.Resolve`. -/
def KernelSymbolResolver.resolve (tools : Tools) (r : KernelSymbolResolver)
    (order : Enumeration r.kallsyms) (addr : U64) : Except String String :=
  let closest := closestSymbol order.toList addr
  if closest.2 = "" then .error ("symbol not found for address " ++ hex addr)
  else .ok (r.report tools addr closest.1 closest.2)

theorem kernelResolve_eq_ok_iff {tools : Tools} {r : KernelSymbolResolver}
    (order : Enumeration r.kallsyms) {addr : U64} {out : String} :
    r.resolve tools order addr = .ok out ↔ ∃ symAddr name,
      IsClosest r.kallsyms addr symAddr name ∧ name ≠ "" ∧
        out = r.report tools addr symAddr name := by
  unfold KernelSymbolResolver.resolve
  dsimp only
  constructor
  · intro h
    split at h
    case isTrue => cases h
    case isFalse hname =>
      cases h
      exact ⟨_, _, (closestSymbol_eq_iff order hname).mp rfl, hname, rfl⟩
  · rintro ⟨symAddr, name, hclosest, hname, rfl⟩
    rw [(closestSymbol_eq_iff order hname).mpr hclosest, if_neg hname]

theorem kernelResolve_eq_error_iff {tools : Tools} {r : KernelSymbolResolver}
    (order : Enumeration r.kallsyms) {addr : U64} {msg : String} :
    r.resolve tools order addr = .error msg ↔
      (∀ symAddr name, IsClosest r.kallsyms addr symAddr name → name = "") ∧
        msg = "symbol not found for address " ++ hex addr := by
  unfold KernelSymbolResolver.resolve
  dsimp only
  constructor
  · intro h
    split at h
    case isFalse => cases h
    case isTrue hempty =>
      refine ⟨fun symAddr name hclosest => by_contra fun hname => hname ?_,
        (Except.error.inj h).symm⟩
      rwa [(closestSymbol_eq_iff order hname).mpr hclosest] at hempty
  · rintro ⟨h, rfl⟩
    refine if_pos (by_contra fun hname => hname ?_)
    exact h _ _ ((closestSymbol_eq_iff order hname).mp rfl)

/-- The order of the pass does not matter. -/
theorem kernelResolve_eq {tools : Tools} {r : KernelSymbolResolver}
    (order order' : Enumeration r.kallsyms) (addr : U64) :
    r.resolve tools order addr = r.resolve tools order' addr := by
  cases h : r.resolve tools order' addr with
  | ok out => exact (kernelResolve_eq_ok_iff order).mpr ((kernelResolve_eq_ok_iff order').mp h)
  | error msg =>
      exact (kernelResolve_eq_error_iff order).mpr ((kernelResolve_eq_error_iff order').mp h)

/-- **The resolvers report the closest symbol**, whatever the orders of their passes over
the symbols: `SymbolResolver.Resolve` the one of the first mapping that has a closest
symbol with a name, `KernelSymbolResolver.Resolve` the one of `kallsyms`. They fail
exactly when there is none, and none of their subtractions wraps around. -/
theorem resolve_finds_closest (tools : Tools) :
    (∀ (r : SymbolResolver) (passes : r.Passes) (pc : U64),
      (∀ s, r.findSymbol passes pc = some s ↔ r.FirstFound pc s) ∧
      (∀ out, r.resolve tools passes pc = .ok out ↔
        ∃ s, r.FirstFound pc s ∧ out = s.report tools pc) ∧
      (∀ msg, r.resolve tools passes pc = .error msg ↔
        (∀ s : FoundSymbol, s.mapping ∈ r.mappings → ¬ s.Qualifies pc) ∧
          msg = "symbol not found for address " ++ hex pc) ∧
      (∀ s, r.FirstFound pc s → 1 ≤ s.mapping.virtualAddr pc ∧
        (s.mapping.virtualAddr pc - 1).toNat + 1 = (s.mapping.virtualAddr pc).toNat) ∧
      ∀ passes' : r.Passes, r.resolve tools passes' pc = r.resolve tools passes pc) ∧
    ∀ (r : KernelSymbolResolver) (order : Enumeration r.kallsyms) (addr : U64),
      (∀ out, r.resolve tools order addr = .ok out ↔ ∃ symAddr name,
        IsClosest r.kallsyms addr symAddr name ∧ name ≠ "" ∧
          out = r.report tools addr symAddr name) ∧
      (∀ msg, r.resolve tools order addr = .error msg ↔
        (∀ symAddr name, IsClosest r.kallsyms addr symAddr name → name = "") ∧
          msg = "symbol not found for address " ++ hex addr) ∧
      (∀ symAddr name, IsClosest r.kallsyms addr symAddr name →
        (addr - symAddr).toNat = addr.toNat - symAddr.toNat ∧
          symAddr.toNat + (addr - symAddr).toNat = addr.toNat) ∧
      ∀ order' : Enumeration r.kallsyms, r.resolve tools order' addr =
        r.resolve tools order addr := by
  refine ⟨fun r passes pc => ⟨fun s => findSymbol_eq_some_iff passes,
    fun out => resolve_eq_ok_iff passes, fun msg => resolve_eq_error_iff passes, ?_, ?_⟩,
    fun r order addr => ⟨fun out => kernelResolve_eq_ok_iff order,
      fun msg => kernelResolve_eq_error_iff order, ?_, ?_⟩⟩
  · rintro s ⟨pre, post, -, -, hqual⟩
    exact ⟨hqual.one_le, toNat_sub_one hqual.one_le⟩
  · intro passes'
    unfold SymbolResolver.resolve
    rw [findSymbol_eq passes' passes]
  · intro symAddr name hclosest
    have hle := BitVec.le_def.mp hclosest.le
    have hsub := BitVec.toNat_sub_of_le hclosest.le
    exact ⟨hsub, by omega⟩
  · exact fun order' => kernelResolve_eq order' order addr

end EbpfMemleak
