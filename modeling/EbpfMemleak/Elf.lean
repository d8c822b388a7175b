import EbpfMemleak.Symbolizer

/-!
# EbpfMemleak.Elf

What the addresses mean that `SymbolResolver.Resolve` compares: the mappings of a
process as the kernel lists them, the ELF files that are mapped, and the functions
that the symbols of a file stand for.

The mappings of a process do not overlap (`ProcMaps`), so the one that contains the
program counter decides the result (`ProcMaps.findSymbol_eq_some_iff`). Two questions
are then about the address that is searched for.

* *Which coordinate is it in?* The kernel maps a segment so that a page of the file at
  `offset` appears at `start`; a symbol's value counts from the segment's virtual
  address. `virtualAddr_iff_offset_eq_vaddr` finds the two the same exactly for the
  segments whose file offset is their virtual address.
* *Which function is it in?* The call of a frame ends one byte before the return
  address, so where that byte is the last of a function, the next function begins at
  the address that is searched for (`reports_caller_iff`).
-/

namespace EbpfMemleak

/-! ### The mappings of a process -/

/-- A resolver over the mappings of one process: no two of them overlap. -/
structure ProcMaps extends SymbolResolver where
  disjoint : mappings.Pairwise fun m m' => ∀ pc, m.Contains pc → ¬ m'.Contains pc

namespace ProcMaps

theorem eq_of_contains (maps : ProcMaps) {m m' : ProcMapEntry} (hm : m ∈ maps.mappings)
    (hm' : m' ∈ maps.mappings) {pc : U64} (h : m.Contains pc) (h' : m'.Contains pc) : m = m' := by
  by_contra hne
  have hsymm : Std.Symm fun m m' : ProcMapEntry => ∀ pc, m.Contains pc → ¬ m'.Contains pc :=
    ⟨fun _ _ hdisj pc h h' => hdisj pc h' h⟩
  exact maps.disjoint.forall hm hm' hne pc h h'

/-- The mapping that contains the program counter decides what is found. -/
theorem findSymbol_eq_some_iff (maps : ProcMaps) (passes : maps.Passes) {m : ProcMapEntry}
    (hm : m ∈ maps.mappings) {pc : U64} (hpc : m.Contains pc) {s : FoundSymbol} :
    maps.findSymbol passes pc = some s ↔ s.mapping = m ∧
      IsClosest m.symbols (m.virtualAddr pc) s.addr s.name ∧ s.name ≠ "" := by
  rw [EbpfMemleak.findSymbol_eq_some_iff]
  constructor
  · rintro ⟨pre, post, hsplit, -, hcontains, hclosest, hname⟩
    have hmem : s.mapping ∈ maps.mappings := hsplit ▸ List.mem_append_right _ List.mem_cons_self
    obtain rfl := maps.eq_of_contains hmem hm hcontains hpc
    exact ⟨rfl, hclosest, hname⟩
  · rintro ⟨rfl, hclosest, hname⟩
    obtain ⟨pre, post, hsplit⟩ := List.append_of_mem hm
    refine ⟨pre, post, hsplit, fun s' hs' hqual => ?_, hpc, hclosest, hname⟩
    -- a mapping before `m` does not contain `pc`
    have hdisj := maps.disjoint
    rw [hsplit, List.pairwise_append] at hdisj
    exact hdisj.2.2 s'.mapping hs' s.mapping List.mem_cons_self pc hqual.1 hpc

end ProcMaps

/-! ### ELF files -/

/-- The kind of an ELF file: `ET_EXEC`, at fixed addresses, or `ET_DYN`. -/
inductive ElfType
  | exec
  | dyn
  deriving DecidableEq

/-- An ELF file that parses: what `loadSymbols` and `addr2line` read of it. -/
structure ElfFile where
  type : ElfType
  path : String
  /-- `Symbols()`. -/
  syms : Option (List ElfSymbol)
  /-- `DynamicSymbols()`. -/
  dynSyms : Option (List ElfSymbol)

/-- `a` rounded down to a multiple of `page`. -/
def pageDown (page a : U64) : U64 := a - a % page

/-- An executable `PT_LOAD` segment of a file, mapped by the kernel. -/
structure MappedSegment (page : U64) where
  file : ElfFile
  /-- `p_offset`. -/
  offset : U64
  /-- `p_vaddr`. -/
  vaddr : U64
  /-- Offset and address are congruent modulo the page size. -/
  aligned : offset % page = vaddr % page
  loadBias : U64
  /-- A file at fixed addresses is not moved. -/
  fixed : file.type = .exec → loadBias = 0
  /-- Where the mapping ends. -/
  endAddr : U64

/-- What `NewUserspaceSymbolResolver` makes of the segment's line in `/proc/<pid>/maps`. -/
def MappedSegment.entry {page : U64} (seg : MappedSegment page) : ProcMapEntry where
  start := seg.loadBias + pageDown page seg.vaddr
  endAddr := seg.endAddr
  offset := pageDown page seg.offset
  path := seg.file.path
  symbols := loadSymbols seg.file.syms seg.file.dynSyms

theorem pageDown_inj {page a b : U64} (h : a % page = b % page) :
    pageDown page a = pageDown page b ↔ a = b := by
  unfold pageDown
  rw [h]
  exact sub_left_inj

/-- The address that is searched for is off by the distance of the two page numbers. -/
theorem entry_virtualAddr {page : U64} (seg : MappedSegment page) (pc : U64) :
    seg.entry.virtualAddr pc =
      pc - seg.loadBias + (pageDown page seg.offset - pageDown page seg.vaddr) := by
  show pc - (seg.loadBias + pageDown page seg.vaddr) + pageDown page seg.offset = _
  rw [sub_add_eq_sub_sub, sub_add_eq_add_sub, add_sub_assoc]

/-- **Translation to ELF addresses.** The address `Resolve` computes for `pc` is the ELF
virtual address `pc - loadBias`, and the symbol it finds the closest one there, exactly
if the segment's file offset is its virtual address. -/
theorem virtualAddr_iff_offset_eq_vaddr {page : U64} (seg : MappedSegment page) (maps : ProcMaps)
    (hmem : seg.entry ∈ maps.mappings) (passes : maps.Passes) {pc : U64}
    (hpc : seg.entry.Contains pc) :
    (seg.entry.virtualAddr pc = pc - seg.loadBias ∧
      ∀ s, maps.findSymbol passes pc = some s ↔ s.mapping = seg.entry ∧
        IsClosest seg.entry.symbols (pc - seg.loadBias) s.addr s.name ∧ s.name ≠ "") ↔
      seg.offset = seg.vaddr := by
  have haddr : seg.entry.virtualAddr pc = pc - seg.loadBias ↔ seg.offset = seg.vaddr := by
    rw [entry_virtualAddr, add_eq_left, sub_eq_zero, pageDown_inj seg.aligned]
  rw [← haddr]
  refine and_iff_left_of_imp fun heq s => ?_
  rw [← heq]
  exact maps.findSymbol_eq_some_iff passes hmem hpc

/-- The resolver of a process with one executable mapping. -/
def ProcMaps.single (m : ProcMapEntry) : ProcMaps := ⟨⟨[m]⟩, List.pairwise_singleton _ m⟩

/-- The orders one call meets there. -/
def ProcMaps.singlePass {m : ProcMapEntry} (order : Enumeration m.symbols) :
    (ProcMaps.single m).Passes := ⟨[⟨m, order⟩], rfl⟩

/-- A program at fixed addresses: the text at offset `0x1000` of the file has the address
`0x401000`. -/
def fixedText : MappedSegment 0x1000 where
  file := ⟨.exec, "/bin/fixed", some [⟨"main", 0x401000, 0x20⟩], none⟩
  offset := 0x1000
  vaddr := 0x401000
  aligned := by decide
  loadBias := 0
  fixed := fun _ => rfl
  endAddr := 0x402000

/-- In `main` of the program at fixed addresses nothing is found. -/
theorem fixedText_not_found :
    fixedText.entry.Contains 0x401010 ∧
      fixedText.entry.virtualAddr 0x401010 ≠ 0x401010 - fixedText.loadBias ∧
      ∃ order : Enumeration fixedText.entry.symbols,
        closestSymbol order.toList (0x401010 - fixedText.loadBias) = (0x401000, "main") ∧
          (ProcMaps.single fixedText.entry).findSymbol (ProcMaps.singlePass order) 0x401010 =
            none := by
  refine ⟨by decide, by decide, ⟨[(0x401000, "main")], by decide +kernel⟩, by decide, ?_⟩
  decide +kernel

/-- A position-independent program whose text is where it is in the file. -/
def pieText : MappedSegment 0x1000 where
  file := ⟨.dyn, "/bin/pie", some [⟨"main", 0x1000, 0x20⟩], none⟩
  offset := 0x1000
  vaddr := 0x1000
  aligned := rfl
  loadBias := 0x555555554000
  fixed := by decide
  endAddr := 0x555555556000

theorem pieText_found : ∃ passes : (ProcMaps.single pieText.entry).Passes,
    (ProcMaps.single pieText.entry).findSymbol passes 0x555555555010 =
      some ⟨pieText.entry, 0x1000, "main"⟩ := by
  let order : Enumeration pieText.entry.symbols := ⟨[(0x1000, "main")], by decide +kernel⟩
  obtain ⟨-, hfound⟩ := (virtualAddr_iff_offset_eq_vaddr pieText (ProcMaps.single pieText.entry)
    List.mem_cons_self (ProcMaps.singlePass order)
    (show pieText.entry.Contains 0x555555555010 by decide)).mpr rfl
  have hclosest : closestSymbol order.toList (0x555555555010 - pieText.loadBias) =
      (0x1000, "main") := by decide
  exact ⟨ProcMaps.singlePass order, (hfound _).mpr
    ⟨rfl, (closestSymbol_eq_iff order (by decide)).mp hclosest, by decide⟩⟩

/-! ### Functions back to back -/

/-- The functions of a file, back to back, and symbol tables that list them. -/
structure FunctionLayout where
  functions : List ElfSymbol
  contiguous : functions.IsChain fun f g => g.value.toNat = f.value.toNat + f.size.toNat
  syms : Option (List ElfSymbol)
  dynSyms : Option (List ElfSymbol)
  listed : ∀ sym, sym ∈ syms.getD [] ++ dynSyms.getD [] ↔ sym ∈ functions

/-- `addr` is in `[value, value + size)`. -/
def ElfSymbol.Occupies (f : ElfSymbol) (addr : U64) : Prop :=
  f.value ≤ addr ∧ addr.toNat < f.value.toNat + f.size.toNat

theorem ElfSymbol.Occupies.kept {f : ElfSymbol} {addr : U64} (h : f.Occupies addr)
    (hvalue : f.value ≠ 0) : f.Kept := by
  rintro (hzero | hzero)
  · exact hvalue hzero
  · -- an empty function occupies nothing
    have hle := BitVec.le_def.mp h.1
    have hlt := h.2
    have hsize : f.size.toNat = 0 := congrArg BitVec.toNat hzero
    omega

/-- `f` ends before `g` begins. -/
def ElfSymbol.Before (f g : ElfSymbol) : Prop := f.value.toNat + f.size.toNat ≤ g.value.toNat

theorem ElfSymbol.Kept.size_pos {f : ElfSymbol} (h : f.Kept) : 0 < f.size.toNat := by
  have hsize : f.size ≠ 0 := fun hz => h (Or.inr hz)
  exact Nat.pos_of_ne_zero fun hz => hsize (BitVec.eq_of_toNat_eq hz)

namespace FunctionLayout

variable (layout : FunctionLayout)

/-- What `loadSymbols` makes of the tables. -/
def symbols : Finmap fun _ : U64 => String := loadSymbols layout.syms layout.dynSyms

theorem before_or {f g : ElfSymbol} (hf : f ∈ layout.functions) (hg : g ∈ layout.functions) :
    f = g ∨ f.Before g ∨ g.Before f := by
  have htrans : Trans ElfSymbol.Before ElfSymbol.Before ElfSymbol.Before :=
    ⟨fun h h' => by unfold ElfSymbol.Before at *; omega⟩
  have hpair : layout.functions.Pairwise ElfSymbol.Before :=
    List.isChain_iff_pairwise.mp (layout.contiguous.imp fun _ _ h => h.ge)
  have hsymm : Std.Symm fun f g : ElfSymbol => f.Before g ∨ g.Before f := ⟨fun _ _ => Or.symm⟩
  by_cases hne : f = g
  · exact Or.inl hne
  · exact Or.inr ((hpair.imp fun h => Or.inl h : layout.functions.Pairwise
      fun f g => f.Before g ∨ g.Before f).forall hf hg hne)

theorem lookup_symbols {addr : U64} {name : String} : layout.symbols.lookup addr = some name ↔
    ∃ f ∈ layout.functions, f.Kept ∧ f.value = addr ∧ f.name = name := by
  unfold symbols loadSymbols
  rw [← collectSymbols_append, lookup_collectSymbols]
  · simp only [layout.listed]
  · -- two functions at one address are one, as neither is empty
    intro f hf g hg hfk hgk hvalue
    have hfpos := hfk.size_pos
    have hgpos := hgk.size_pos
    rcases layout.before_or ((layout.listed f).mp hf) ((layout.listed g).mp hg) with
      rfl | hlt | hlt
    · rfl
    · unfold ElfSymbol.Before at hlt
      rw [hvalue] at hlt
      omega
    · unfold ElfSymbol.Before at hlt
      rw [hvalue] at hlt
      omega

theorem isClosest_iff {bound addr : U64} {name : String} :
    IsClosest layout.symbols bound addr name ↔
      (∃ f ∈ layout.functions, f.Kept ∧ f.value = addr ∧ f.name = name) ∧ addr ≤ bound ∧
        ∀ g ∈ layout.functions, g.Kept → g.value ≤ bound → g.value ≤ addr := by
  constructor
  · intro h
    refine ⟨layout.lookup_symbols.mp h.lookup, h.le, fun g hg hk hle => ?_⟩
    have hmem := Finmap.mem_of_lookup_eq_some (layout.lookup_symbols.mpr ⟨g, hg, hk, rfl, rfl⟩)
    exact h.greatest g.value hmem hk.one_le hle
  · rintro ⟨hf, hle, hgreatest⟩
    refine ⟨layout.lookup_symbols.mpr hf, ?_, hle, fun a ha _ hale => ?_⟩
    · obtain ⟨f, -, hk, rfl, -⟩ := hf
      exact hk.one_le
    · obtain ⟨n, hn⟩ := Finmap.mem_iff.mp ha
      obtain ⟨g, hg, hk, rfl, -⟩ := layout.lookup_symbols.mp hn
      exact hgreatest g hg hk hale

/-- A function that begins at the bound is the closest one. -/
theorem isClosest_of_value_eq {g : ElfSymbol} (hg : g ∈ layout.functions) (hk : g.Kept) :
    IsClosest layout.symbols g.value g.value g.name :=
  layout.isClosest_iff.mpr ⟨⟨g, hg, hk, rfl, rfl⟩, BitVec.le_refl _, fun _ _ _ hle => hle⟩

/-- Where no function begins at the bound, a function up to it begins no later than the
one that holds the byte before. -/
theorem value_le_of_occupies {f g : ElfSymbol} {bound : U64} (hf : f ∈ layout.functions)
    (hocc : f.Occupies (bound - 1)) (hbound : 1 ≤ bound) (hg : g ∈ layout.functions)
    (hne : g.value ≠ bound) (hle : g.value ≤ bound) : g = f ∨ g.Before f := by
  have hlast := hocc.2
  have hpred := toNat_sub_one hbound
  have hlt : g.value.toNat < bound.toNat := by
    have hne' : g.value.toNat ≠ bound.toNat := fun h => hne (BitVec.eq_of_toNat_eq h)
    have hle' := BitVec.le_def.mp hle
    omega
  rcases layout.before_or hg hf with heq | hbefore | hafter
  · exact Or.inl heq
  · exact Or.inr hbefore
  · unfold ElfSymbol.Before at hafter
    omega

/-- The closest symbol up to `bound` has the name of the function that holds the byte
before `bound`. -/
theorem closest_name_iff {f : ElfSymbol} {bound : U64} (hf : f ∈ layout.functions)
    (hocc : f.Occupies (bound - 1)) :
    (∃ addr, IsClosest layout.symbols bound addr f.name) ↔ bound ≠ 0 ∧
      ((∃ g ∈ layout.functions, g.Kept ∧ g.value = bound ∧ g.name = f.name) ∨
        (∀ g ∈ layout.functions, g.Kept → g.value ≠ bound) ∧ f.Kept) := by
  constructor
  · rintro ⟨addr, hclosest⟩
    have hbound : 1 ≤ bound := BitVec.le_trans hclosest.pos hclosest.le
    refine ⟨(BitVec.ne_of_lt (one_le_iff.mp hbound)).symm, ?_⟩
    obtain ⟨⟨g, hg, hk, rfl, hname⟩, hle, -⟩ := layout.isClosest_iff.mp hclosest
    by_cases hstart : ∃ h ∈ layout.functions, h.Kept ∧ h.value = bound
    · obtain ⟨h, hh, hhk, rfl⟩ := hstart
      exact Or.inl ⟨h, hh, hhk, rfl,
        ((layout.isClosest_of_value_eq hh hhk).unique hclosest).2⟩
    · have hnone : ∀ h ∈ layout.functions, h.Kept → h.value ≠ bound :=
        fun h hh hhk heq => hstart ⟨h, hh, hhk, heq⟩
      refine Or.inr ⟨hnone, ?_⟩
      rcases layout.value_le_of_occupies hf hocc hbound hg (hnone g hg hk) hle with rfl | hbefore
      · exact hk
      · -- `f` begins after `g`, so not at 0, and it is not empty
        have hgpos := hk.size_pos
        unfold ElfSymbol.Before at hbefore
        refine hocc.kept fun hzero => ?_
        have hvalue : f.value.toNat = 0 := congrArg BitVec.toNat hzero
        omega
  · rintro ⟨hbound, ⟨g, hg, hk, rfl, hname⟩ | ⟨hnone, hk⟩⟩
    · exact ⟨g.value, hname ▸ layout.isClosest_of_value_eq hg hk⟩
    · have hbound : 1 ≤ bound := BitVec.le_def.mpr (BitVec.toNat_pos_of_ne_zero hbound)
      have hpred := toNat_sub_one hbound
      have hfirst := BitVec.le_def.mp hocc.1
      refine ⟨f.value, layout.isClosest_iff.mpr ⟨⟨f, hf, hk, rfl, rfl⟩, ?_, ?_⟩⟩
      · exact BitVec.le_def.mpr (by omega)
      · intro g hg hgk hle
        rcases layout.value_le_of_occupies hf hocc hbound hg (hnone g hg hgk) hle with
          rfl | hbefore
        · exact BitVec.le_refl _
        · unfold ElfSymbol.Before at hbefore
          exact BitVec.le_def.mpr (by omega)

end FunctionLayout

/-- **The function of a frame.** Let the last byte of the call, at `virtualAddr - 1`, be
in `f`. `Resolve` reports the name of `f` exactly if `f` has a name, `virtualAddr` is
not 0, and either no function begins at `virtualAddr` and `f` itself was not skipped, or
the function that begins there has the name of `f` too. -/
theorem reports_caller_iff (layout : FunctionLayout) (maps : ProcMaps) {m : ProcMapEntry}
    (hm : m ∈ maps.mappings) (hsymbols : m.symbols = layout.symbols) (passes : maps.Passes)
    {pc : U64} (hpc : m.Contains pc) {f : ElfSymbol} (hf : f ∈ layout.functions)
    (hcall : f.Occupies (m.virtualAddr pc - 1)) :
    (maps.findSymbol passes pc).map FoundSymbol.name = some f.name ↔
      f.name ≠ "" ∧ m.virtualAddr pc ≠ 0 ∧
        ((∃ g ∈ layout.functions, g.Kept ∧ g.value = m.virtualAddr pc ∧ g.name = f.name) ∨
          (∀ g ∈ layout.functions, g.Kept → g.value ≠ m.virtualAddr pc) ∧ f.Kept) := by
  rw [← layout.closest_name_iff hf hcall, Option.map_eq_some_iff]
  constructor
  · rintro ⟨s, hfound, hname⟩
    obtain ⟨-, hclosest, hne⟩ := (maps.findSymbol_eq_some_iff passes hm hpc).mp hfound
    rw [hsymbols, hname] at hclosest
    exact ⟨hname ▸ hne, s.addr, hclosest⟩
  · rintro ⟨hne, addr, hclosest⟩
    rw [← hsymbols] at hclosest
    exact ⟨⟨m, addr, f.name⟩,
      (maps.findSymbol_eq_some_iff passes hm hpc).mpr ⟨rfl, hclosest, hne⟩, rfl⟩

/-- `fail` ends with a call that does not return, and `main` begins right after it. -/
def failMain : FunctionLayout where
  functions := [⟨"fail", 0x1000, 0x10⟩, ⟨"main", 0x1010, 0x20⟩]
  contiguous := by simp
  syms := some [⟨"main", 0x1010, 0x20⟩, ⟨"fail", 0x1000, 0x10⟩]
  dynSyms := none
  listed := by simp [or_comm]

/-- The text of `failMain`, mapped. -/
def failMainEntry : ProcMapEntry :=
  ⟨0x555555555000, 0x555555556000, 0x1000, "/bin/fail", failMain.symbols⟩

def failMainOrder : Enumeration failMainEntry.symbols :=
  ⟨[(0x1010, "main"), (0x1000, "fail")], by decide +kernel⟩

/-- The call at the end of `fail` is reported as one of `main`. -/
theorem fail_reported_as_main :
    failMainEntry.Contains 0x555555555010 ∧
      (⟨"fail", 0x1000, 0x10⟩ : ElfSymbol) ∈ failMain.functions ∧
      ElfSymbol.Occupies ⟨"fail", 0x1000, 0x10⟩
        (failMainEntry.virtualAddr 0x555555555010 - 1) ∧
      ((ProcMaps.single failMainEntry).findSymbol (ProcMaps.singlePass failMainOrder)
        0x555555555010).map FoundSymbol.name = some "main" :=
  ⟨by decide, List.mem_cons_self, ⟨by decide, by decide⟩, by decide +kernel⟩

theorem fail_reported_inside :
    ((ProcMaps.single failMainEntry).findSymbol (ProcMaps.singlePass failMainOrder)
      0x555555555008).map FoundSymbol.name = some "fail" :=
  (reports_caller_iff failMain (ProcMaps.single failMainEntry) List.mem_cons_self rfl
    (ProcMaps.singlePass failMainOrder) (show failMainEntry.Contains 0x555555555008 by decide)
    (f := ⟨"fail", 0x1000, 0x10⟩) List.mem_cons_self ⟨by decide, by decide⟩).mpr
    ⟨by decide, by decide, Or.inr ⟨by decide, by decide⟩⟩

end EbpfMemleak
