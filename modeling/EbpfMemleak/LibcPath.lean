import EbpfMemleak.MapsFile
import Mathlib.Data.List.DropRight

/-!
# EbpfMemleak.LibcPath

Which file `getLibcPath` takes for the C library.

On a file whose names are single words the scan is a search for the first mapping whose
name has `/libc-` or `/libc.so` anywhere in it (`getLibcPath_eq_ok_iff`). The name of every
C library has (`LibcFile.mentionsLibc`), so one is never passed over; but so has every name
below a directory `libc-…`. `getLibcPath_libc_iff` says when the two searches agree.
-/

namespace EbpfMemleak

open Text

/-! ### The first mapping -/

/-- `m` is the first mapping whose name is as wanted. -/
structure FirstMapping (P : List Char → Prop) (ms : List MapsLine) (m : MapsLine) : Prop where
  split : ∃ pre post, ms = pre ++ m :: post ∧ ∀ m' ∈ pre, ¬ P m'.name.toList
  holds : P m.name.toList

section FirstMapping

variable {P Q : List Char → Prop} {ms : List MapsLine} {m : MapsLine}

theorem FirstMapping.cons {m' : MapsLine} (hm' : ¬ P m'.name.toList) (h : FirstMapping P ms m) :
    FirstMapping P (m' :: ms) m := by
  obtain ⟨pre, post, rfl, hpre⟩ := h.split
  exact ⟨⟨m' :: pre, post, rfl, List.forall_mem_cons.mpr ⟨hm', hpre⟩⟩, h.holds⟩

/-- Of the mappings that are as wanted, one is the first. -/
theorem FirstMapping.exists (h : ∃ m ∈ ms, P m.name.toList) : ∃ m, FirstMapping P ms m := by
  induction ms with
  | nil => simp at h
  | cons m ms ih =>
      by_cases hm : P m.name.toList
      · exact ⟨m, ⟨[], ms, rfl, by simp⟩, hm⟩
      · obtain ⟨m', hm'⟩ := ih (by simpa [hm] using h)
        exact ⟨m', hm'.cons hm⟩

theorem FirstMapping.mem (h : FirstMapping P ms m) : m ∈ ms := by
  obtain ⟨pre, post, rfl, -⟩ := h.split
  exact List.mem_append_right _ List.mem_cons_self

/-- The first of many is the first of few, if it is one of these. -/
theorem FirstMapping.restrict (hle : ∀ name, Q name → P name) (h : FirstMapping P ms m)
    (hm : Q m.name.toList) : FirstMapping Q ms m := by
  obtain ⟨pre, post, hms, hpre⟩ := h.split
  exact ⟨⟨pre, post, hms, fun m' hm' hq => hpre m' hm' (hle _ hq)⟩, hm⟩

end FirstMapping

/-! ### The scan -/

/-- A mapping whose name is one word of less than `PATH_MAX` bytes, or empty. -/
structure MapsLine.WordNamed (m : MapsLine) : Prop where
  word : ∀ c ∈ m.name.toList, isSpace c = false
  short : byteLength m.name.toList < 4096

/-- Every line of a maps file with such names is delivered. -/
theorem scan_mapsText {ms : List MapsLine} (hnames : ∀ m ∈ ms, m.WordNamed) :
    Reader.scan ⟨mapsText ms, none⟩ = ⟨ms.map MapsLine.render, false⟩ := by
  have htext : mapsText ms = (ms.map MapsLine.render).flatMap fun l => l ++ ['\n'] := by
    rw [List.flatMap_map]
    rfl
  have hnot : ∀ c, isSpace c = true → c ≠ ' ' → ∀ l ∈ ms.map MapsLine.render, c ∉ l := by
    intro c hspace hblank l hl
    obtain ⟨m, hm, rfl⟩ := List.mem_map.mp hl
    refine m.not_mem_render hspace hblank fun hc => ?_
    simp [(hnames m hm).word c hc] at hspace
  unfold Reader.scan
  rw [htext]
  refine scanLines_flatMap (hnot _ (by decide) (by decide)) (hnot _ (by decide) (by decide)) ?_
  intro l hl
  obtain ⟨m, hm, rfl⟩ := List.mem_map.mp hl
  exact m.byteLength_render_lt (hnames m hm).short

variable {fs : FileSystem} {pid : Int} {ms : List MapsLine}

/-- The loop stops at the first mapping that mentions the C library. -/
theorem findSome_libcPathOfLine (hnames : ∀ m ∈ ms, m.WordNamed) {path : List Char} :
    (ms.map MapsLine.render).findSome? libcPathOfLine = some path ↔
      ∃ m, FirstMapping MentionsLibc ms m ∧ m.name.toList = path := by
  rw [List.findSome?_map, List.findSome?_eq_some_iff]
  constructor
  · rintro ⟨pre, m, post, rfl, hm, hpre⟩
    simp only [List.mem_append, List.mem_cons] at hnames
    have hnone : ∀ m' ∈ pre, ¬ MentionsLibc m'.name.toList := fun m' hm' hlibc => by
      have hline := hpre m' hm'
      rw [Function.comp_apply, libcPathOfLine_render (hnames m' (Or.inl hm')).word,
        if_pos hlibc] at hline
      cases hline
    rw [Function.comp_apply, libcPathOfLine_render (hnames m (by simp)).word] at hm
    split at hm
    case isFalse => cases hm
    case isTrue hlibc => exact ⟨m, ⟨⟨pre, post, rfl, hnone⟩, hlibc⟩, Option.some.inj hm⟩
  · rintro ⟨m, ⟨⟨pre, post, rfl, hpre⟩, hm⟩, rfl⟩
    simp only [List.mem_append, List.mem_cons] at hnames
    refine ⟨pre, m, post, rfl, ?_, fun m' hm' => ?_⟩
    · rw [Function.comp_apply, libcPathOfLine_render (hnames m (by simp)).word, if_pos hm]
    · rw [Function.comp_apply, libcPathOfLine_render (hnames m' (Or.inl hm')).word,
        if_neg (hpre m' hm')]

/-- **What `getLibcPath` returns**: the name of the first mapping that has `/libc-` or
`/libc.so` anywhere in it. -/
theorem getLibcPath_eq_ok_iff (hmaps : fs.openText (procMaps pid) = .ok ⟨mapsText ms, none⟩)
    (hnames : ∀ m ∈ ms, m.WordNamed) {path : String} :
    getLibcPath fs pid = .ok path ↔ ∃ m, FirstMapping MentionsLibc ms m ∧ m.name = path := by
  rw [getLibcPath_of_open hmaps, scan_mapsText hnames, findSome_libcPathOfLine hnames]
  simp only [String.toList_inj]

/-! ### C libraries -/

/-- The last component of a path. -/
def fileName (path : List Char) : List Char := path.rtakeWhile fun c => c != '/'

/-- The path of a C library: the file name begins with `libc-` or `libc.so`. A name without
a slash is no path. -/
def LibcFile (path : List Char) : Prop :=
  '/' ∈ path ∧ ("libc-".toList <+: fileName path ∨ "libc.so".toList <+: fileName path)

instance (path : List Char) : Decidable (LibcFile path) := inferInstanceAs (Decidable (_ ∧ _))

/-- A path is a directory, a slash and the file name. -/
theorem exists_directory {path : List Char} (h : '/' ∈ path) :
    ∃ dir, path = dir ++ '/' :: fileName path := by
  induction path using List.reverseRecOn with
  | nil => simp at h
  | append_singleton path c ih =>
      unfold fileName
      by_cases hc : c = '/'
      · exact ⟨path, by simp [hc]⟩
      · obtain ⟨dir, hdir⟩ := ih (by simpa [Ne.symm hc] using h)
        rw [List.rtakeWhile_concat_pos _ _ _ (by simpa using hc)]
        refine ⟨dir, ?_⟩
        calc path ++ [c] = (dir ++ '/' :: fileName path) ++ [c] := by rw [← hdir]
          _ = dir ++ '/' :: (fileName path ++ [c]) := by simp

/-- The name of a C library has one of the texts `getLibcPath` looks for. -/
theorem LibcFile.mentionsLibc {path : List Char} (h : LibcFile path) : MentionsLibc path := by
  obtain ⟨hslash, hfile⟩ := h
  obtain ⟨dir, hdir⟩ := exists_directory hslash
  have hsub : ∀ pre : List Char, pre <+: fileName path → '/' :: pre <:+: path := by
    rintro pre ⟨rest, hrest⟩
    exact ⟨dir, rest, by rw [hdir, ← hrest]; simp⟩
  exact hfile.imp (hsub _) (hsub _)

/-- `getLibcPath` returns only the C library: a path it returns is that of the first mapping
of a C library, and it does not fail if there is one. -/
structure ReturnsLibc (fs : FileSystem) (pid : Int) (ms : List MapsLine) : Prop where
  path : ∀ path, getLibcPath fs pid = .ok path → ∃ m, FirstMapping LibcFile ms m ∧ m.name = path
  found : (∃ m ∈ ms, LibcFile m.name.toList) → ∃ path, getLibcPath fs pid = .ok path

/-- **When `getLibcPath` returns only the C library**: just if the first mapping with
`/libc-` or `/libc.so` anywhere in its name, when there is one, is of a file so named. -/
theorem getLibcPath_libc_iff (fs : FileSystem) (pid : Int) (ms : List MapsLine)
    (hmaps : fs.openText (procMaps pid) = .ok ⟨mapsText ms, none⟩)
    (hnames : ∀ m ∈ ms, m.WordNamed) :
    ReturnsLibc fs pid ms ↔ ∀ m, FirstMapping MentionsLibc ms m → LibcFile m.name.toList := by
  constructor
  · intro h m hm
    obtain ⟨m', hm', hname⟩ := h.path _ ((getLibcPath_eq_ok_iff hmaps hnames).mpr ⟨m, hm, rfl⟩)
    exact hname ▸ hm'.holds
  · intro h
    refine ⟨fun path hpath => ?_, fun ⟨m, hm, hlibc⟩ => ?_⟩
    · obtain ⟨m, hm, hname⟩ := (getLibcPath_eq_ok_iff hmaps hnames).mp hpath
      exact ⟨m, hm.restrict (fun _ => LibcFile.mentionsLibc) (h m hm), hname⟩
    · obtain ⟨m', hm'⟩ := FirstMapping.exists ⟨m, hm, hlibc.mentionsLibc⟩
      exact ⟨m'.name, (getLibcPath_eq_ok_iff hmaps hnames).mpr ⟨m', hm', rfl⟩⟩

/-- A mapping with a name. -/
def mappingNamed (name : String) : MapsLine where
  start := 0x1000
  endAddr := 0x2000
  readable := true
  writable := false
  executable := true
  shared := false
  offset := 0
  major := 8
  minor := 1
  inode := 77
  name := name

/-- A process with these mappings. -/
def processWith (ms : List MapsLine) : FileSystem where
  openText _ := .ok ⟨mapsText ms, none⟩
  openElf _ := none

/-- A program, anonymous memory and the C library. -/
def usualMaps : List MapsLine :=
  [mappingNamed "/usr/bin/app", mappingNamed "", mappingNamed "/usr/lib/libc.so.6"]

theorem usualMaps_returnsLibc : ReturnsLibc (processWith usualMaps) 1 usualMaps := by
  have hnames : ∀ m ∈ usualMaps, m.WordNamed := by
    intro m hm
    simp only [usualMaps, List.mem_cons, List.not_mem_nil, or_false] at hm
    rcases hm with rfl | rfl | rfl <;> exact ⟨forall_mem_of_all (by decide), by decide⟩
  have hlibc : ∀ m ∈ usualMaps, MentionsLibc m.name.toList → LibcFile m.name.toList := by decide
  exact (getLibcPath_libc_iff (processWith usualMaps) 1 usualMaps rfl hnames).mpr
    fun m hm => hlibc m hm.mem hm.holds

/-- The program lies below a directory `libc-tools`. -/
def toolMaps : List MapsLine :=
  [mappingNamed "/opt/libc-tools/app", mappingNamed "/usr/lib/libc.so.6"]

/-- `getLibcPath` takes such a program for the C library. -/
theorem toolMaps_not_returnsLibc :
    (∀ m ∈ toolMaps, m.WordNamed) ∧
      getLibcPath (processWith toolMaps) 1 = .ok "/opt/libc-tools/app" ∧
      ¬ ReturnsLibc (processWith toolMaps) 1 toolMaps := by
  have hnames : ∀ m ∈ toolMaps, m.WordNamed := by
    intro m hm
    simp only [toolMaps, List.mem_cons, List.not_mem_nil, or_false] at hm
    rcases hm with rfl | rfl <;> exact ⟨forall_mem_of_all (by decide), by decide⟩
  have hpath : getLibcPath (processWith toolMaps) 1 = .ok "/opt/libc-tools/app" := by
    refine (getLibcPath_eq_ok_iff rfl hnames).mpr ?_
    exact ⟨_, ⟨⟨[], _, rfl, by simp⟩, by decide⟩, rfl⟩
  refine ⟨hnames, hpath, fun h => ?_⟩
  obtain ⟨m, hm, hname⟩ := h.path _ hpath
  have hlibc := hm.holds
  rw [hname] at hlibc
  exact absurd hlibc (by decide)

end EbpfMemleak
