import Mathlib.Data.BitVec
import Mathlib.Data.List.Basic

/-!
# EbpfMemleak.Lib.Text

Reading texts: splitting into fields and lines, and numbers in a base.

A text is a list of characters. `fields` is told from `splitOnP` by dropping the empty
pieces, so it follows from one equation, `fields_append_cons`: a separator splits the
fields. `scanLines` is a line scanner whose buffer has a size: a line that does not fit
ends the scan. `parseUint` reads back what `Nat.toDigits` prints, with any number of
zeros in front (`parseUint_toDigits`).
-/

namespace Text

/-! ### Fields -/

section Fields

variable {α : Type*} {p : α → Bool}

/-- The maximal pieces of a text without separators. -/
def fields (p : α → Bool) (s : List α) : List (List α) :=
  (s.splitOnP p).filter fun w => !w.isEmpty

@[simp] theorem fields_nil : fields p [] = [] := rfl

/-- **A separator splits the fields.** -/
theorem fields_append_cons {c : α} (hc : p c = true) (s t : List α) :
    fields p (s ++ c :: t) = fields p s ++ fields p t := by
  unfold fields
  rw [List.splitOnP_append_cons s t hc, List.filter_append]

theorem fields_cons {c : α} (hc : p c = true) (t : List α) : fields p (c :: t) = fields p t := by
  simpa using fields_append_cons hc [] t

/-- A text without separators is one field. -/
theorem fields_eq_singleton {w : List α} (hne : w ≠ []) (hw : ∀ c ∈ w, p c = false) :
    fields p w = [w] := by
  unfold fields
  rw [List.splitOnP_eq_singleton hw]
  simp [hne]

/-- A field at the front of a text. -/
theorem fields_word_append {w : List α} (hne : w ≠ []) (hw : ∀ c ∈ w, p c = false) {c : α}
    (hc : p c = true) (t : List α) : fields p (w ++ c :: t) = w :: fields p t := by
  rw [fields_append_cons hc, fields_eq_singleton hne hw, List.singleton_append]

theorem fields_replicate_append {c : α} (hc : p c = true) (n : Nat) (t : List α) :
    fields p (List.replicate n c ++ t) = fields p t := by
  induction n with
  | zero => rfl
  | succ n ih =>
      rw [List.replicate_succ, List.cons_append, fields_cons hc, ih]

/-- A field contains no separator. -/
theorem not_sep_of_mem_fields {s w : List α} (h : w ∈ fields p s) : ∀ c ∈ w, p c = false := by
  by_cases hsep : ∃ c ∈ s, p c = true
  · -- the fields on the two sides of a separator, both sides shorter
    obtain ⟨c, hc, hp⟩ := hsep
    obtain ⟨a, b, hs⟩ := List.append_of_mem hc
    have hlen : s.length = a.length + (b.length + 1) := by simp [hs]
    rw [hs, fields_append_cons hp] at h
    rcases List.mem_append.mp h with h | h
    · exact not_sep_of_mem_fields h
    · exact not_sep_of_mem_fields h
  · have hs : ∀ c ∈ s, p c = false := by simpa using hsep
    unfold fields at h
    rw [List.splitOnP_eq_singleton hs] at h
    obtain rfl := List.mem_singleton.mp (List.mem_filter.mp h).1
    exact hs
termination_by s.length
decreasing_by all_goals omega

end Fields

/-! ### Substrings -/

section Substrings

variable {α : Type*}

/-- A substring that begins with a character the front of a text does not have lies behind
the front. -/
theorem infix_append_iff_of_not_mem {c : α} {t s s' : List α} (h : c ∉ s) :
    c :: t <:+: s ++ s' ↔ c :: t <:+: s' := by
  refine ⟨fun hsub => ?_, List.infix_append_of_infix_right⟩
  induction s with
  | nil => exact hsub
  | cons x s ih =>
      rw [List.cons_append, List.infix_cons_iff] at hsub
      rcases hsub with hpre | hsub
      · rw [List.cons_prefix_cons] at hpre
        exact absurd (hpre.1 ▸ List.mem_cons_self) h
      · exact ih (fun hc => h (List.mem_cons_of_mem _ hc)) hsub

/-- A property of the characters of a text, checked one by one. (`decide` on the statement
itself may run through all characters there are.) -/
theorem forall_mem_of_all {P : α → Prop} [DecidablePred P] {s : List α}
    (h : (s.all fun c => decide (P c)) = true) : ∀ c ∈ s, P c :=
  fun c hc => of_decide_eq_true (List.all_eq_true.mp h c hc)

end Substrings

/-! ### Lines -/

/-- The length of a text in UTF-8. -/
def byteLength (s : List Char) : Nat := (s.map Char.utf8Size).sum

@[simp] theorem byteLength_append (s t : List Char) :
    byteLength (s ++ t) = byteLength s + byteLength t := by
  simp [byteLength]

/-- A text of ASCII characters has a byte for each. -/
theorem byteLength_eq_length {s : List Char} (h : ∀ c ∈ s, c.utf8Size = 1) :
    byteLength s = s.length := by
  unfold byteLength
  rw [List.map_congr_left h]
  simp

/-- A line without a carriage return at its end. -/
def dropCR (l : List Char) : List Char := if l.getLast? = some '\r' then l.dropLast else l

theorem dropCR_eq_self {l : List Char} (h : '\r' ∉ l) : dropCR l = l :=
  if_neg fun hlast => h (List.mem_of_getLast? hlast)

/-- The lines a scanner delivers, and whether a line that is too long ended the scan. -/
structure Scanned where
  lines : List (List Char)
  tooLong : Bool
  deriving Repr, DecidableEq

/-- A scan over what the line ends leave of a text, with a buffer of `size` bytes, in
which a line has to fit together with its end. An empty rest is no line. -/
def scanPieces (size : Nat) : List (List Char) → Scanned
  | [] => ⟨[], false⟩
  | [rest] =>
      if rest = [] then ⟨[], false⟩
      else if size ≤ byteLength rest then ⟨[], true⟩
      else ⟨[dropCR rest], false⟩
  | l :: ls =>
      if size ≤ byteLength l then ⟨[], true⟩
      else
        let scanned := scanPieces size ls
        ⟨dropCR l :: scanned.lines, scanned.tooLong⟩

/-- A scan of a text, line by line. -/
def scanLines (size : Nat) (s : List Char) : Scanned := scanPieces size (s.splitOn '\n')

theorem scanLines_append {size : Nat} {l : List Char} (hl : '\n' ∉ l) (s : List Char) :
    scanLines size (l ++ '\n' :: s) =
      if size ≤ byteLength l then ⟨[], true⟩
      else ⟨dropCR l :: (scanLines size s).lines, (scanLines size s).tooLong⟩ := by
  obtain ⟨piece, pieces, hs⟩ := List.exists_cons_of_ne_nil (List.splitOn_ne_nil '\n' s)
  unfold scanLines
  rw [List.splitOn_append_cons_self_of_not_mem hl, hs]
  rfl

/-- Lines that fit are delivered as they are. -/
theorem scanLines_flatMap {size : Nat} {ls : List (List Char)} (hend : ∀ l ∈ ls, '\n' ∉ l)
    (hcr : ∀ l ∈ ls, '\r' ∉ l) (hfit : ∀ l ∈ ls, byteLength l < size) :
    scanLines size (ls.flatMap fun l => l ++ ['\n']) = ⟨ls, false⟩ := by
  induction ls with
  | nil => rfl
  | cons l ls ih =>
      simp only [List.forall_mem_cons] at hend hcr hfit
      rw [List.flatMap_cons, List.append_assoc, List.singleton_append,
        scanLines_append hend.1, if_neg (Nat.not_le.mpr hfit.1), ih hend.2 hcr.2 hfit.2,
        dropCR_eq_self hcr.1]

/-- A scan ends early just if a line does not fit. -/
theorem scanLines_flatMap_tooLong {size : Nat} {ls : List (List Char)}
    (hend : ∀ l ∈ ls, '\n' ∉ l) :
    (scanLines size (ls.flatMap fun l => l ++ ['\n'])).tooLong = true ↔
      ∃ l ∈ ls, size ≤ byteLength l := by
  induction ls with
  | nil => simp [scanLines, scanPieces]
  | cons l ls ih =>
      simp only [List.forall_mem_cons] at hend
      rw [List.flatMap_cons, List.append_assoc, List.singleton_append, scanLines_append hend.1]
      by_cases hfit : size ≤ byteLength l
      · simp [hfit]
      · simp [hfit, ih hend.2]

/-! ### Numbers -/

/-- The value of a digit, letters of either case from ten on. -/
def digitValue (c : Char) : Option Nat :=
  if '0' ≤ c ∧ c ≤ '9' then some (c.toNat - '0'.toNat)
  else if 'a' ≤ c ∧ c ≤ 'z' then some (c.toNat - 'a'.toNat + 10)
  else if 'A' ≤ c ∧ c ≤ 'Z' then some (c.toNat - 'A'.toNat + 10)
  else none

/-- Reading digits behind a number `n`; none may be invalid, and the number stays below
`bound`. -/
def parseDigits (base bound : Nat) (n : Nat) : List Char → Option Nat
  | [] => some n
  | c :: cs =>
      match digitValue c with
      | none => none
      | some d =>
          if base ≤ d then none
          else if bound ≤ n * base + d then none
          else parseDigits base bound (n * base + d) cs

/-- A number of `w` bits in a base; an empty text is none. -/
def parseUint (base w : Nat) (s : List Char) : Option (BitVec w) :=
  if s = [] then none else (parseDigits base (2 ^ w) 0 s).map (BitVec.ofNat w)

/-- The characters of a number are digits of its base. -/
theorem exists_digit_of_mem_toDigits {base n : Nat} (hone : 1 < base) {c : Char}
    (h : c ∈ Nat.toDigits base n) : ∃ d < base, d.digitChar = c := by
  induction n using Nat.strong_induction_on with
  | _ n ih =>
      rw [Nat.toDigits_eq_if hone] at h
      split at h
      case isTrue hlt => exact ⟨n, hlt, (List.mem_singleton.mp h).symm⟩
      case isFalse hge =>
        rcases List.mem_append.mp h with h | h
        · exact ih (n / base) (Nat.div_lt_self (by omega) hone) h
        · exact ⟨n % base, Nat.mod_lt n (by omega), (List.mem_singleton.mp h).symm⟩

theorem digitValue_digitChar {d : Nat} (h : d < 16) : digitValue d.digitChar = some d := by
  have hall : ∀ d : Fin 16, digitValue (Nat.digitChar d) = some d.val := by decide
  exact hall ⟨d, h⟩

theorem parseDigits_append {base bound n : Nat} {s t : List Char} :
    parseDigits base bound n (s ++ t) =
      (parseDigits base bound n s).bind fun n => parseDigits base bound n t := by
  induction s generalizing n with
  | nil => rfl
  | cons c s ih =>
      simp only [List.cons_append, parseDigits]
      split
      case h_1 => rfl
      case h_2 d hd => split_ifs <;> simp [ih]

theorem parseDigits_replicate_zero {base bound : Nat} (hbase : 0 < base) (hbound : 0 < bound)
    (k : Nat) (s : List Char) :
    parseDigits base bound 0 (List.replicate k '0' ++ s) = parseDigits base bound 0 s := by
  induction k with
  | zero => rfl
  | succ k ih =>
      have hzero : digitValue '0' = some 0 := by decide
      simp [List.replicate_succ, parseDigits, hzero, hbase.ne', hbound.ne', ih]

/-- The digits of a number are read back. -/
theorem parseDigits_toDigits {base bound : Nat} (hone : 1 < base) (hle : base ≤ 16) {n : Nat}
    (hn : n < bound) : parseDigits base bound 0 (Nat.toDigits base n) = some n := by
  induction n using Nat.strong_induction_on with
  | _ n ih =>
      have hdigit : ∀ d < base, ∀ m, m * base + d < bound →
          parseDigits base bound m [d.digitChar] = some (m * base + d) := by
        intro d hd m hm
        simp [parseDigits, digitValue_digitChar (Nat.lt_of_lt_of_le hd hle), hd, hm]
      rw [Nat.toDigits_eq_if hone]
      split
      case isTrue hlt => simpa using hdigit n hlt 0 (by simpa using hn)
      case isFalse hge =>
        have hdiv : n / base < n := Nat.div_lt_self (by omega) hone
        have hsum : n / base * base + n % base = n := Nat.div_add_mod' n base
        rw [parseDigits_append, ih _ hdiv (hdiv.trans hn), Option.bind_some,
          hdigit _ (Nat.mod_lt n (by omega)) _ (hsum.symm ▸ hn), hsum]

/-- **A printed number is read back**, with any number of zeros in front. -/
theorem parseUint_toDigits {base w : Nat} (hone : 1 < base) (hle : base ≤ 16) (k : Nat)
    (v : BitVec w) :
    parseUint base w (List.replicate k '0' ++ Nat.toDigits base v.toNat) = some v := by
  have hne : List.replicate k '0' ++ Nat.toDigits base v.toNat ≠ [] := by
    simp [Nat.toDigits_ne_nil]
  unfold parseUint
  rw [if_neg hne, parseDigits_replicate_zero (by omega) (Nat.two_pow_pos w),
    parseDigits_toDigits hone hle v.isLt]
  simp

end Text
