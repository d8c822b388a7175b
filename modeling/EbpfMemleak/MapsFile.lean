import EbpfMemleak.Elf
import EbpfMemleak.Lib.Text

/-!
# EbpfMemleak.MapsFile

`/proc/<pid>/maps`: how the kernel prints a mapping, and the two functions that read the
file, `NewUserspaceSymbolResolver` (`userspace.go`) and `getLibcPath` (`probe.go`).

Both split a line at white space. The header of a line is five words without a slash
(`header_chars`), so what they make of a line is told by the fields of the name behind it
(`fields_render`): the resolver takes the first of these, `getLibcPath` the last.

`maps_line_read_back_iff` says of which mappings they recover the path.
-/

namespace EbpfMemleak

open Text

/-! ### What the kernel prints -/

/-- `seq_put_hex_ll`: hexadecimal, with zeros in front up to a width. -/
def putHex (width v : Nat) : List Char := (Nat.toDigits 16 v).leftpad width '0'

/-- A mapping as `show_map_vma` prints it. -/
structure MapsLine where
  start : U64
  endAddr : U64
  readable : Bool
  writable : Bool
  executable : Bool
  shared : Bool
  offset : U64
  major : U32
  minor : U32
  inode : U64
  /-- The path of a file or a name in brackets; empty for anonymous memory. -/
  name : String
  deriving Repr, DecidableEq

namespace MapsLine

variable (m : MapsLine)

/-- The first word of a line. -/
def addresses : List Char := putHex 8 m.start.toNat ++ '-' :: putHex 8 m.endAddr.toNat

/-- The second word. -/
def perms : List Char :=
  [if m.readable then 'r' else '-', if m.writable then 'w' else '-',
    if m.executable then 'x' else '-', if m.shared then 's' else 'p']

/-- The fourth word. -/
def device : List Char := putHex 2 m.major.toNat ++ ':' :: putHex 2 m.minor.toNat

/-- `show_vma_header_prefix`, up to the inode. -/
def header : List Char :=
  m.addresses ++ ' ' :: (m.perms ++ ' ' :: (putHex 8 m.offset.toNat ++ ' ' ::
    (m.device ++ ' ' :: Nat.toDigits 10 m.inode.toNat)))

/-- `seq_pad`: a name begins behind column 72, or behind one more blank. -/
def padding : List Char :=
  if m.name = "" then [] else List.replicate (72 - (m.header.length + 1) + 1) ' '

/-- The line, without its end. -/
def render : List Char := m.header ++ ' ' :: (m.padding ++ m.name.toList)

end MapsLine

/-- `show_map`, for all mappings of a process. -/
def mapsText (ms : List MapsLine) : List Char := ms.flatMap fun m => m.render ++ ['\n']

/-! ### The header of a line -/

/-- The characters of the words of a header. -/
def wordChars : List Char := "0123456789abcdef-rwxsp:".toList

/-- A word of a header. -/
structure HeaderWord (w : List Char) : Prop where
  ne_nil : w ≠ []
  chars : ∀ c ∈ w, c ∈ wordChars

theorem wordChars_spec :
    ∀ c ∈ wordChars, isSpace c = false ∧ c ≠ '/' ∧ c.utf8Size = 1 :=
  forall_mem_of_all (by decide)

theorem HeaderWord.isSpace {w : List Char} (h : HeaderWord w) :
    ∀ c ∈ w, EbpfMemleak.isSpace c = false :=
  fun c hc => (wordChars_spec c (h.chars c hc)).1

/-- The characters of a number. -/
theorem digit_of_mem_toDigits {base v : Nat} (hone : 1 < base) (hle : base ≤ 16) {c : Char}
    (h : c ∈ Nat.toDigits base v) : c ∈ "0123456789abcdef".toList := by
  have hall : ∀ d : Fin 16, Nat.digitChar d ∈ "0123456789abcdef".toList := by decide
  obtain ⟨d, hd, rfl⟩ := exists_digit_of_mem_toDigits hone h
  exact hall ⟨d, by omega⟩

theorem digit_of_mem_putHex {width v : Nat} {c : Char} (h : c ∈ putHex width v) :
    c ∈ "0123456789abcdef".toList := by
  unfold putHex List.leftpad at h
  rcases List.mem_append.mp h with h | h
  · rw [List.eq_of_mem_replicate h]
    decide
  · exact digit_of_mem_toDigits (by decide) (by decide) h

theorem wordChars_of_digit : ∀ c ∈ "0123456789abcdef".toList, c ∈ wordChars :=
  forall_mem_of_all (by decide)

theorem dash_not_mem_putHex (width v : Nat) : '-' ∉ putHex width v :=
  fun h => absurd (digit_of_mem_putHex h) (by decide)

theorem headerWord_putHex (width v : Nat) : HeaderWord (putHex width v) where
  ne_nil := by simp [putHex, List.leftpad, Nat.toDigits_ne_nil]
  chars c hc := wordChars_of_digit c (digit_of_mem_putHex hc)

theorem headerWord_decimal (v : Nat) : HeaderWord (Nat.toDigits 10 v) where
  ne_nil := Nat.toDigits_ne_nil
  chars c hc := wordChars_of_digit c (digit_of_mem_toDigits (by decide) (by decide) hc)

theorem length_putHex_le {width k v : Nat} (hk : 0 < k) (hwidth : width ≤ k)
    (hv : v < 16 ^ k) : (putHex width v).length ≤ k := by
  have hdigits := (Nat.length_toDigits_le_iff (by decide) hk).mpr hv
  rw [putHex, List.length_leftpad]
  omega

/-- Two words around a character. -/
theorem HeaderWord.append_cons {w w' : List Char} {c : Char} (h : HeaderWord w)
    (h' : HeaderWord w') (hc : c ∈ wordChars) : HeaderWord (w ++ c :: w') where
  ne_nil := by simp
  chars x hx := by
    rcases List.mem_append.mp hx with hx | hx
    · exact h.chars x hx
    · rcases List.mem_cons.mp hx with rfl | hx
      · exact hc
      · exact h'.chars x hx

namespace MapsLine

variable (m : MapsLine)

theorem headerWord_addresses : HeaderWord m.addresses :=
  (headerWord_putHex _ _).append_cons (headerWord_putHex _ _) (by decide)

theorem headerWord_perms : HeaderWord m.perms where
  ne_nil := by simp [perms]
  chars := by
    have hall : ∀ r w x s : Bool, [if r then 'r' else '-', if w then 'w' else '-',
        if x then 'x' else '-', if s then 's' else 'p'] ⊆ wordChars := by decide
    exact hall m.readable m.writable m.executable m.shared

theorem headerWord_device : HeaderWord m.device :=
  (headerWord_putHex _ _).append_cons (headerWord_putHex _ _) (by decide)

/-- A header consists of words and blanks. -/
theorem header_chars {c : Char} (h : c ∈ m.header) : c ∈ wordChars ∨ c = ' ' := by
  simp only [header, List.mem_append, List.mem_cons] at h
  rcases h with h | rfl | h | rfl | h | rfl | h | rfl | h
  · exact Or.inl (m.headerWord_addresses.chars c h)
  · exact Or.inr rfl
  · exact Or.inl (m.headerWord_perms.chars c h)
  · exact Or.inr rfl
  · exact Or.inl ((headerWord_putHex _ _).chars c h)
  · exact Or.inr rfl
  · exact Or.inl (m.headerWord_device.chars c h)
  · exact Or.inr rfl
  · exact Or.inl ((headerWord_decimal _).chars c h)

theorem padding_eq : ∃ n, m.padding = List.replicate n ' ' ∧ n ≤ 72 := by
  unfold padding
  split
  case isTrue => exact ⟨0, rfl, by omega⟩
  case isFalse => exact ⟨_, rfl, by omega⟩

/-- What stands in front of the name: words and blanks. -/
theorem mem_render {c : Char} (h : c ∈ m.render) :
    c ∈ wordChars ∨ c = ' ' ∨ c ∈ m.name.toList := by
  obtain ⟨n, hn, -⟩ := m.padding_eq
  simp only [render, hn, List.mem_append, List.mem_cons] at h
  rcases h with h | rfl | h | h
  · exact (m.header_chars h).imp_right Or.inl
  · exact Or.inr (Or.inl rfl)
  · exact Or.inr (Or.inl (List.eq_of_mem_replicate h))
  · exact Or.inr (Or.inr h)

/-- A line has no line end or carriage return but in its name. -/
theorem not_mem_render {c : Char} (hspace : isSpace c = true) (hblank : c ≠ ' ')
    (hname : c ∉ m.name.toList) : c ∉ m.render := by
  intro h
  rcases m.mem_render h with h | rfl | h
  · exact absurd hspace (by simp [(wordChars_spec c h).1])
  · exact hblank rfl
  · exact hname h

/-- **The fields of a line** are the five words of its header and those of its name. -/
theorem fields_render : fields isSpace m.render =
    m.addresses :: m.perms :: putHex 8 m.offset.toNat :: m.device ::
      Nat.toDigits 10 m.inode.toNat :: fields isSpace m.name.toList := by
  have hblank : isSpace ' ' = true := by decide
  have hword : ∀ {w : List Char}, HeaderWord w → ∀ t : List Char,
      fields isSpace (w ++ ' ' :: t) = w :: fields isSpace t :=
    fun hw => fields_word_append hw.ne_nil hw.isSpace hblank
  obtain ⟨n, hn, -⟩ := m.padding_eq
  simp only [render, header, List.append_assoc, List.cons_append]
  rw [hword m.headerWord_addresses, hword m.headerWord_perms, hword (headerWord_putHex _ _),
    hword m.headerWord_device, hword (headerWord_decimal _), hn,
    fields_replicate_append hblank]

theorem length_header_le : m.header.length ≤ 94 := by
  have hword : ∀ v : U64, (putHex 8 v.toNat).length ≤ 16 := fun v =>
    length_putHex_le (by decide) (by decide) v.isLt
  have hnumber : ∀ v : U32, (putHex 2 v.toNat).length ≤ 8 := fun v =>
    length_putHex_le (by decide) (by decide) v.isLt
  have hinode : (Nat.toDigits 10 m.inode.toNat).length ≤ 20 := by
    rw [Nat.length_toDigits_le_iff (by decide) (by decide)]
    exact m.inode.isLt.trans (by decide)
  have hstart := hword m.start
  have hend := hword m.endAddr
  have hoffset := hword m.offset
  have hmajor := hnumber m.major
  have hminor := hnumber m.minor
  simp only [header, addresses, perms, device, List.length_append, List.length_cons,
    List.length_nil]
  omega

/-- A line is not much longer than its name. -/
theorem byteLength_render_le : byteLength m.render ≤ byteLength m.name.toList + 167 := by
  obtain ⟨n, hn, hle⟩ := m.padding_eq
  have hheader : byteLength m.header = m.header.length := by
    refine byteLength_eq_length fun c hc => ?_
    rcases m.header_chars hc with hc | rfl
    · exact (wordChars_spec c hc).2.2
    · decide
  have hpadding : byteLength m.padding = n := by
    rw [hn, byteLength_eq_length, List.length_replicate]
    intro c hc
    rw [List.eq_of_mem_replicate hc]
    decide
  have hlength := m.length_header_le
  have hblank : byteLength [' '] = 1 := by decide
  have hsplit : m.render = m.header ++ [' '] ++ m.padding ++ m.name.toList := by simp [render]
  rw [hsplit, byteLength_append, byteLength_append, byteLength_append]
  omega

/-- A text with a slash in front is in a line just if it is in the name. -/
theorem infix_render_iff {t : List Char} :
    '/' :: t <:+: m.render ↔ '/' :: t <:+: m.name.toList := by
  obtain ⟨n, hn, -⟩ := m.padding_eq
  have hheader : '/' ∉ m.header ++ ' ' :: m.padding := by
    simp only [hn, List.mem_append, List.mem_cons, not_or]
    refine ⟨fun h => ?_, by decide, fun h => absurd (List.eq_of_mem_replicate h) (by decide)⟩
    rcases m.header_chars h with h | h
    · exact (wordChars_spec _ h).2.1 rfl
    · exact absurd h (by decide)
  have hsplit : m.render = m.header ++ ' ' :: m.padding ++ m.name.toList := by simp [render]
  rw [hsplit]
  exact infix_append_iff_of_not_mem hheader

end MapsLine

/-! ### The readers -/

/-- What reading a file gives: its text, up to the error that ends the reading, if one
does. -/
structure Reader where
  text : List Char
  err : Option String

/-- `bufio.MaxScanTokenSize`. -/
def maxScanTokenSize : Nat := 64 * 1024

/-- A line with a name of at most `PATH_MAX` bytes fits into the buffer. -/
theorem MapsLine.byteLength_render_lt (m : MapsLine) (h : byteLength m.name.toList < 4096) :
    byteLength m.render < maxScanTokenSize := by
  have hle := m.byteLength_render_le
  unfold maxScanTokenSize
  omega

/-- A `bufio.Scanner` over a file. -/
def Reader.scan (f : Reader) : Scanned := scanLines maxScanTokenSize f.text

/-- `scanner.Err()`, after the last `Scan`. -/
def Reader.scanErr (f : Reader) : Option String :=
  if f.scan.tooLong then some "bufio.Scanner: token too long" else f.err

/-- The files the readers open. -/
structure FileSystem where
  /-- `os.Open` and what is read, or the error. -/
  openText : String → Except String Reader
  /-- `os.Open` and `elf.NewFile`, `none` when one fails. -/
  openElf : String → Option ElfFile

/-- `fmt.Sprintf("/proc/%d/maps", pid)`. -/
def procMaps (pid : Int) : String := "/proc/" ++ toString pid ++ "/maps"

/-- The body of the loop of `NewUserspaceSymbolResolver`: the entry a line adds, if it adds
one. -/
def parseMapsLine (fs : FileSystem) (line : List Char) : Option ProcMapEntry :=
  match fields isSpace line with
  | addresses :: perms :: offset :: _ :: _ :: path :: _ =>
      match addresses.splitOn '-' with
      | [start, endAddr] => do
          let start ← parseUint 16 64 start
          let endAddr ← parseUint 16 64 endAddr
          let offset ← parseUint 16 64 offset
          if ['/'] <+: path ∧ ['x'] <:+: perms then
            let file ← fs.openElf (String.ofList path)
            some
              { start, endAddr, offset
                path := String.ofList path
                symbols := loadSymbols file.syms file.dynSyms }
          else none
      | _ => none
  -- fewer than six fields
  | _ => none

/-- `NewUserspaceSymbolResolver`. That the scan ended early is not looked at. -/
def newUserspaceSymbolResolver (fs : FileSystem) (mapsFile : String) :
    Except String SymbolResolver :=
  match fs.openText mapsFile with
  | .error err => .error err
  | .ok f => .ok ⟨f.scan.lines.filterMap (parseMapsLine fs)⟩

/-- `strings.Contains(line, "/libc-") || strings.Contains(line, "/libc.so")`. -/
def MentionsLibc (line : List Char) : Prop :=
  "/libc-".toList <:+: line ∨ "/libc.so".toList <:+: line

instance (line : List Char) : Decidable (MentionsLibc line) := inferInstanceAs (Decidable (_ ∨ _))

theorem MentionsLibc.ne_nil {line : List Char} (h : MentionsLibc line) : line ≠ [] := by
  rintro rfl
  revert h
  decide

theorem mentionsLibc_render (m : MapsLine) :
    MentionsLibc m.render ↔ MentionsLibc m.name.toList :=
  or_congr m.infix_render_iff m.infix_render_iff

/-- The body of the loop of `getLibcPath`: the path it returns at a line, if it does. -/
def libcPathOfLine (line : List Char) : Option (List Char) :=
  if MentionsLibc line then
    let fields := fields isSpace line
    if 6 ≤ fields.length then fields.getLast? else none
  else none

/-- `getLibcPath`. -/
def getLibcPath (fs : FileSystem) (pid : Int) : Except String String :=
  match fs.openText (procMaps pid) with
  | .error err => .error err
  | .ok f =>
      match f.scan.lines.findSome? libcPathOfLine with
      | some path => .ok (String.ofList path)
      | none =>
          match f.scanErr with
          | some err => .error ("failed to read " ++ procMaps pid ++ ": " ++ err)
          -- the error that is printed here is the one of `os.Open`, which is `nil`
          | none => .error ("failed to read " ++ procMaps pid ++ ": %!w(<nil>)")

section Opened

variable {fs : FileSystem} {mapsFile : String} {pid : Int} {f : Reader}

/-- The resolver of a file that opens has the entries of the lines that are delivered. -/
theorem resolver_of_open (h : fs.openText mapsFile = .ok f) :
    newUserspaceSymbolResolver fs mapsFile =
      .ok ⟨f.scan.lines.filterMap (parseMapsLine fs)⟩ := by
  unfold newUserspaceSymbolResolver
  rw [h]

/-- The path of a file that opens is that of the first delivered line that has one. -/
theorem getLibcPath_of_open (h : fs.openText (procMaps pid) = .ok f) {path : String} :
    getLibcPath fs pid = .ok path ↔
      f.scan.lines.findSome? libcPathOfLine = some path.toList := by
  unfold getLibcPath
  rw [h]
  dsimp only
  cases f.scan.lines.findSome? libcPathOfLine with
  | none => cases f.scanErr <;> simp
  | some name =>
      have hiff : String.ofList name = path ↔ name = path.toList :=
        ⟨fun heq => by rw [← heq, String.toList_ofList],
          fun heq => by rw [heq, String.ofList_toList]⟩
      simpa using hiff

end Opened

/-! ### What the readers make of a line -/

/-- The path of an entry is a field of the line. -/
theorem path_mem_fields {fs : FileSystem} {line : List Char} {e : ProcMapEntry}
    (h : parseMapsLine fs line = some e) : e.path.toList ∈ fields isSpace line := by
  unfold parseMapsLine at h
  split at h
  case h_2 => cases h
  case h_1 addresses perms offset device inode path rest hfields =>
    split at h
    case h_2 => cases h
    case h_1 =>
      simp only [Option.bind_eq_bind, Option.bind_eq_some_iff] at h
      obtain ⟨start, -, endAddr, -, off, -, h⟩ := h
      split at h
      case isFalse => cases h
      case isTrue =>
        obtain ⟨file, -, h⟩ := Option.bind_eq_some_iff.mp h
        cases h
        simp [hfields]

/-- **What the resolver makes of a line** with a path of one field. -/
theorem parseMapsLine_render {fs : FileSystem} {m : MapsLine} {path : String}
    {rest : List (List Char)} (hname : fields isSpace m.name.toList = path.toList :: rest)
    (habs : ['/'] <+: path.toList) (hexec : m.executable = true) :
    parseMapsLine fs m.render = (fs.openElf path).map fun file =>
      { start := m.start, endAddr := m.endAddr, offset := m.offset, path
        symbols := loadSymbols file.syms file.dynSyms } := by
  have hsplit : m.addresses.splitOn '-' = [putHex 8 m.start.toNat, putHex 8 m.endAddr.toNat] := by
    unfold MapsLine.addresses
    rw [List.splitOn_append_cons_self_of_not_mem (dash_not_mem_putHex _ _),
      List.splitOn_eq_singleton (dash_not_mem_putHex _ _)]
  have hhex : ∀ v : U64, parseUint 16 64 (putHex 8 v.toNat) = some v := fun v =>
    parseUint_toDigits (by decide) (by decide) _ v
  have hperms : ['x'] <:+: m.perms :=
    ⟨[if m.readable then 'r' else '-', if m.writable then 'w' else '-'],
      [if m.shared then 's' else 'p'], by simp [MapsLine.perms, hexec]⟩
  unfold parseMapsLine
  rw [m.fields_render, hname]
  simp only [hsplit, hhex, Option.bind_eq_bind, Option.bind_some, habs, hperms, and_self,
    if_true, String.ofList_toList]
  cases fs.openElf path <;> rfl

/-- **What `getLibcPath` makes of a line** with a name of one field. -/
theorem libcPathOfLine_render {m : MapsLine} (h : ∀ c ∈ m.name.toList, isSpace c = false) :
    libcPathOfLine m.render =
      if MentionsLibc m.name.toList then some m.name.toList else none := by
  unfold libcPathOfLine
  by_cases hlibc : MentionsLibc m.name.toList
  · have hfield : fields isSpace m.name.toList = [m.name.toList] :=
      fields_eq_singleton hlibc.ne_nil h
    simp [mentionsLibc_render, hlibc, m.fields_render, hfield]
  · simp [mentionsLibc_render, hlibc]

/-! ### A mapping of a file -/

/-- A file-backed executable mapping. -/
structure FileMapping where
  start : U64
  endAddr : U64
  nonempty : start < endAddr
  readable : Bool
  writable : Bool
  shared : Bool
  offset : U64
  major : U32
  minor : U32
  inode : U64
  path : String
  absolute : ['/'] <+: path.toList
  noNewline : '\n' ∉ path.toList
  /-- The file has been unlinked. -/
  deleted : Bool

namespace FileMapping

variable (m : FileMapping)

/-- What is printed behind the padding (`d_path`). -/
def name : String := if m.deleted then m.path ++ " (deleted)" else m.path

/-- The line of the mapping. -/
def line : MapsLine where
  start := m.start
  endAddr := m.endAddr
  readable := m.readable
  writable := m.writable
  executable := true
  shared := m.shared
  offset := m.offset
  major := m.major
  minor := m.minor
  inode := m.inode
  name := m.name

@[simp] theorem line_name : m.line.name = m.name := rfl

/-- The mapping as the resolver is to know it, where `file` is what lies at the path. -/
def entry (file : ElfFile) : ProcMapEntry where
  start := m.start
  endAddr := m.endAddr
  offset := m.offset
  path := m.path
  symbols := loadSymbols file.syms file.dynSyms

/-- Both readers recover the mapping from a file with its line: the resolver makes exactly
its entry of it, and if `getLibcPath` selects the line, it returns the path of that entry. -/
structure ReadBack (fs : FileSystem) (pid : Int) (file : ElfFile) : Prop where
  resolver : newUserspaceSymbolResolver fs (procMaps pid) = .ok ⟨[m.entry file]⟩
  libc : MentionsLibc m.line.render → ∀ r, newUserspaceSymbolResolver fs (procMaps pid) = .ok r →
    ∀ e ∈ r.mappings, getLibcPath fs pid = .ok e.path

theorem toList_name : m.name.toList =
    m.path.toList ++ if m.deleted then ' ' :: "(deleted)".toList else [] := by
  unfold name
  split <;> simp_all

theorem newline_not_mem_name : '\n' ∉ m.name.toList := by
  rw [toList_name, List.mem_append, not_or]
  refine ⟨m.noNewline, ?_⟩
  split <;> decide

theorem path_ne_nil : m.path.toList ≠ [] := by
  intro h
  have habs := m.absolute
  rw [h] at habs
  revert habs
  decide

/-- The fields of the name, if the path is one. -/
theorem fields_name (hpath : ∀ c ∈ m.path.toList, isSpace c = false) :
    fields isSpace m.name.toList =
      m.path.toList :: if m.deleted then ["(deleted)".toList] else [] := by
  rw [toList_name]
  split
  · rw [fields_word_append m.path_ne_nil hpath (by decide)]
    rfl
  · rw [List.append_nil, fields_eq_singleton m.path_ne_nil hpath]

/-- The line is delivered by a scanner, if it fits. -/
theorem scan_line {f : Reader} (hf : f = ⟨mapsText [m.line], none⟩) : f.scan =
    if maxScanTokenSize ≤ byteLength m.line.render then ⟨[], true⟩
    else ⟨[dropCR m.line.render], false⟩ := by
  have hend : '\n' ∉ m.line.render :=
    m.line.not_mem_render (by decide) (by decide) m.newline_not_mem_name
  subst hf
  have htext : mapsText [m.line] = m.line.render ++ '\n' :: [] := by simp [mapsText]
  unfold Reader.scan
  rw [htext, scanLines_append hend]
  rfl

theorem dropCR_render (hpath : ∀ c ∈ m.path.toList, isSpace c = false) :
    dropCR m.line.render = m.line.render := by
  refine dropCR_eq_self (m.line.not_mem_render (by decide) (by decide) ?_)
  show '\r' ∉ m.name.toList
  rw [toList_name, List.mem_append, not_or]
  refine ⟨fun h => absurd (hpath _ h) (by decide), ?_⟩
  split <;> decide

variable {m} {fs : FileSystem} {pid : Int} {file : ElfFile}

/-- What the resolver reads. -/
theorem resolver_eq (hmaps : fs.openText (procMaps pid) = .ok ⟨mapsText [m.line], none⟩)
    (hfits : byteLength m.line.render < maxScanTokenSize) :
    newUserspaceSymbolResolver fs (procMaps pid) =
      .ok ⟨(parseMapsLine fs (dropCR m.line.render)).toList⟩ := by
  rw [resolver_of_open hmaps, m.scan_line rfl, if_neg (Nat.not_le.mpr hfits)]
  cases h : parseMapsLine fs (dropCR m.line.render) <;> simp [h]

/-- What `getLibcPath` returns at a line it selects. -/
theorem getLibcPath_eq (hmaps : fs.openText (procMaps pid) = .ok ⟨mapsText [m.line], none⟩)
    (hfits : byteLength m.line.render < maxScanTokenSize) {path : String}
    (hpath : libcPathOfLine (dropCR m.line.render) = some path.toList) :
    getLibcPath fs pid = .ok path := by
  rw [getLibcPath_of_open hmaps, m.scan_line rfl, if_neg (Nat.not_le.mpr hfits)]
  simp [hpath]

/-- The line of an unlinked file ends in a word that is not its path. -/
theorem libcPathOfLine_deleted (hpath : ∀ c ∈ m.path.toList, isSpace c = false)
    (hdel : m.deleted = true) (hlibc : MentionsLibc m.line.render) :
    libcPathOfLine m.line.render = some "(deleted)".toList := by
  have hname : fields isSpace m.line.name.toList = [m.path.toList, "(deleted)".toList] := by
    simpa [hdel] using m.fields_name hpath
  unfold libcPathOfLine
  rw [if_pos hlibc, m.line.fields_render, hname]
  rfl

/-- An unlinked file's line does not give its path. -/
theorem path_ne_deleted : m.path ≠ "(deleted)" := by
  intro h
  have habs := m.absolute
  rw [h] at habs
  revert habs
  decide

/-- Of a path of one word on a line that fits, the resolver makes exactly the entry. -/
theorem resolver_of_word (hmaps : fs.openText (procMaps pid) = .ok ⟨mapsText [m.line], none⟩)
    (helf : fs.openElf m.path = some file) (hpath : ∀ c ∈ m.path.toList, isSpace c = false)
    (hfits : byteLength m.line.render < maxScanTokenSize) :
    newUserspaceSymbolResolver fs (procMaps pid) = .ok ⟨[m.entry file]⟩ := by
  have hexec : m.line.executable = true := rfl
  have hparse : parseMapsLine fs m.line.render = some (m.entry file) := by
    rw [parseMapsLine_render (m := m.line) (m.fields_name hpath) m.absolute hexec, helf]
    rfl
  rw [resolver_eq hmaps hfits, m.dropCR_render hpath, hparse]
  rfl

/-- An entry with the path of the mapping shows that the line fits and the path is a word. -/
theorem word_of_resolver (hmaps : fs.openText (procMaps pid) = .ok ⟨mapsText [m.line], none⟩)
    (h : newUserspaceSymbolResolver fs (procMaps pid) = .ok ⟨[m.entry file]⟩) :
    (∀ c ∈ m.path.toList, isSpace c = false) ∧
      byteLength m.line.render < maxScanTokenSize := by
  have hfits : byteLength m.line.render < maxScanTokenSize := by
    by_contra hlong
    rw [resolver_of_open hmaps, m.scan_line rfl, if_pos (Nat.not_lt.mp hlong)] at h
    simp at h
  rw [resolver_eq hmaps hfits] at h
  have hentry : parseMapsLine fs (dropCR m.line.render) = some (m.entry file) := by
    simpa [Option.toList_eq_singleton_iff] using h
  exact ⟨not_sep_of_mem_fields (path_mem_fields hentry), hfits⟩

/-- Of an unlinked file on a line it selects, `getLibcPath` returns another path than the
resolver. -/
theorem ReadBack.not_deleted
    (hmaps : fs.openText (procMaps pid) = .ok ⟨mapsText [m.line], none⟩)
    (h : m.ReadBack fs pid file) (hlibc : MentionsLibc m.line.render) : m.deleted = false := by
  obtain ⟨hpath, hfits⟩ := word_of_resolver hmaps h.resolver
  by_contra hdel
  have hline : libcPathOfLine (dropCR m.line.render) = some "(deleted)".toList := by
    rw [m.dropCR_render hpath]
    exact libcPathOfLine_deleted hpath (by simpa using hdel) hlibc
  have hlast := h.libc hlibc _ h.resolver _ List.mem_cons_self
  rw [getLibcPath_eq hmaps hfits hline] at hlast
  exact path_ne_deleted (Except.ok.inj hlast).symm

/-- A path of one word that is the whole name is what `getLibcPath` returns. -/
theorem getLibcPath_of_word
    (hmaps : fs.openText (procMaps pid) = .ok ⟨mapsText [m.line], none⟩)
    (hpath : ∀ c ∈ m.path.toList, isSpace c = false)
    (hfits : byteLength m.line.render < maxScanTokenSize) (hdel : m.deleted = false)
    (hlibc : MentionsLibc m.line.render) : getLibcPath fs pid = .ok m.path := by
  have hname : m.line.name.toList = m.path.toList := by simpa [hdel] using m.toList_name
  have hword : ∀ c ∈ m.line.name.toList, isSpace c = false := hname ▸ hpath
  have hline : libcPathOfLine (dropCR m.line.render) = some m.path.toList := by
    rw [m.dropCR_render hpath, libcPathOfLine_render hword,
      if_pos ((mentionsLibc_render _).mp hlibc), hname]
  exact getLibcPath_eq hmaps hfits hline

end FileMapping

/-- **Which mappings are read back**: those whose path has no white space and whose line is
shorter than the scanner's buffer, and of the files `getLibcPath` selects only those that
have not been unlinked. -/
theorem maps_line_read_back_iff (fs : FileSystem) (pid : Int) (m : FileMapping) (file : ElfFile)
    (hmaps : fs.openText (procMaps pid) = .ok ⟨mapsText [m.line], none⟩)
    (helf : fs.openElf m.path = some file) :
    m.ReadBack fs pid file ↔
      (∀ c ∈ m.path.toList, isSpace c = false) ∧
        byteLength m.line.render < maxScanTokenSize ∧
        (MentionsLibc m.line.render → m.deleted = false) := by
  constructor
  · intro h
    obtain ⟨hpath, hfits⟩ := FileMapping.word_of_resolver hmaps h.resolver
    exact ⟨hpath, hfits, h.not_deleted hmaps⟩
  · rintro ⟨hpath, hfits, hdel⟩
    have hresolver := FileMapping.resolver_of_word hmaps helf hpath hfits
    refine ⟨hresolver, fun hlibc r hr e he => ?_⟩
    obtain rfl := Except.ok.inj (hresolver.symm.trans hr)
    obtain rfl := List.mem_singleton.mp he
    exact FileMapping.getLibcPath_of_word hmaps hpath hfits (hdel hlibc) hlibc

/-- A mapping of the first page of a file. -/
def firstPage (path : String) (habs : ['/'] <+: path.toList) (hline : '\n' ∉ path.toList)
    (deleted : Bool) : FileMapping where
  start := 0x1000
  endAddr := 0x2000
  nonempty := by decide
  readable := true
  writable := false
  shared := false
  offset := 0
  major := 8
  minor := 1
  inode := 77
  path := path
  absolute := habs
  noNewline := hline
  deleted := deleted

/-- A library without symbols. -/
def bareLibrary (path : String) : ElfFile := ⟨.dyn, path, none, none⟩

/-- Files for a process with one mapping; a library lies at every path. -/
def filesOf (m : FileMapping) : FileSystem where
  openText _ := .ok ⟨mapsText [m.line], none⟩
  openElf path := some (bareLibrary path)

def libcPage : FileMapping :=
  firstPage "/usr/lib/libc.so.6" (by decide) (by decide) false

theorem libc_read_back : libcPage.ReadBack (filesOf libcPage) 1 (bareLibrary libcPage.path) :=
  (maps_line_read_back_iff (filesOf libcPage) 1 libcPage (bareLibrary libcPage.path) rfl rfl).mpr
    ⟨forall_mem_of_all (by decide), libcPage.line.byteLength_render_lt (by decide), fun _ => rfl⟩

def spacedPage : FileMapping :=
  firstPage "/opt/my app/plugin.so" (by decide) (by decide) false

def unlinkedPage : FileMapping :=
  firstPage "/usr/lib/libc.so.6" (by decide) (by decide) true

/-- The path of a mapping with a blank in it is cut off, and of an unlinked C library
`getLibcPath` returns `(deleted)`. -/
theorem spaced_or_unlinked_not_read_back :
    ¬ spacedPage.ReadBack (filesOf spacedPage) 1 (bareLibrary spacedPage.path) ∧
      ¬ unlinkedPage.ReadBack (filesOf unlinkedPage) 1 (bareLibrary unlinkedPage.path) := by
  constructor
  · intro h
    have hpath := (FileMapping.word_of_resolver rfl h.resolver).1
    exact absurd (hpath ' ' (by decide)) (by decide)
  · intro h
    have hlibc : MentionsLibc unlinkedPage.line.render :=
      (mentionsLibc_render _).mpr (by decide)
    exact absurd (h.not_deleted rfl hlibc) (by decide)

end EbpfMemleak
