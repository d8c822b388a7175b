import Mathlib.Data.Finmap

/-!
# EbpfMemleak.Lib.Enumeration

**Reading a finite map in no particular order.** An `Enumeration f` is one pass
over the finite map `f`: a list with every entry once, in any order. A program
that iterates over an unordered map is a function of such a list, and its result
is independent of the order when it is the same for all enumerations of the map.

`greatest` is the common single pass for an entry of greatest rank: the candidate
is replaced by every entry that is eligible and outranks it. `greatest_spec` says
what it finds, in terms that do not mention the order.

A map that is built by insertions keeps the last entry of every key
(`lookup_foldl_insert`).
-/

/-- One pass over the finite map `f`, in some order. -/
structure Enumeration {κ ν : Type*} (f : Finmap fun _ : κ => ν) where
  toList : List (κ × ν)
  /-- Every entry of the map occurs once. -/
  entries_eq : (↑(toList.map fun p => (⟨p.1, p.2⟩ : Σ _ : κ, ν)) : Multiset (Σ _ : κ, ν)) =
    f.entries

namespace Enumeration

variable {κ ν : Type*} {f : Finmap fun _ : κ => ν}

theorem nodup_keys (e : Enumeration f) : (e.toList.map Prod.fst).Nodup := by
  have h := f.nodupKeys
  rw [← e.entries_eq, Multiset.coe_nodupKeys, List.NodupKeys, List.keys, List.map_map] at h
  exact h

theorem mem_iff [DecidableEq κ] (e : Enumeration f) {k : κ} {v : ν} :
    (k, v) ∈ e.toList ↔ f.lookup k = some v := by
  rw [Finmap.lookup_eq_some_iff, ← e.entries_eq, Multiset.mem_coe, List.mem_map]
  constructor
  · exact fun h => ⟨(k, v), h, rfl⟩
  · rintro ⟨⟨k', v'⟩, h, heq⟩
    cases heq
    exact h

/-- The values read are the values stored, each as often as it is stored. -/
theorem values_eq (e : Enumeration f) :
    (↑(e.toList.map Prod.snd) : Multiset ν) = f.entries.map Sigma.snd := by
  rw [← e.entries_eq, Multiset.map_coe, List.map_map]
  rfl

/-- A map can be read in some order. -/
noncomputable def ofMap (f : Finmap fun _ : κ => ν) : Enumeration f where
  toList := f.entries.toList.map fun p => (p.1, p.2)
  entries_eq := by simp [List.map_map, Function.comp_def]

end Enumeration

/-! ### The greatest eligible entry -/

section Greatest

variable {α ρ : Type*} [LinearOrder ρ]

/-- A single pass for an eligible entry of greatest rank, from the candidate `c`. -/
def greatest (ok : α → Prop) [DecidablePred ok] (rank : α → ρ) (c : α) (xs : List α) : α :=
  xs.foldl (fun c x => if ok x ∧ rank c < rank x then x else c) c

/-- The pass ends with its first candidate, unless an eligible entry outranks it, and
no eligible entry outranks what it ends with. -/
theorem greatest_spec (ok : α → Prop) [DecidablePred ok] (rank : α → ρ) (c : α) (xs : List α) :
    (greatest ok rank c xs = c ∨
        greatest ok rank c xs ∈ xs ∧ ok (greatest ok rank c xs) ∧
          rank c < rank (greatest ok rank c xs)) ∧
      ∀ x ∈ xs, ok x → rank x ≤ rank (greatest ok rank c xs) := by
  induction xs generalizing c with
  | nil => exact ⟨Or.inl rfl, by simp⟩
  | cons x xs ih =>
      have hstep : greatest ok rank c (x :: xs) =
          greatest ok rank (if ok x ∧ rank c < rank x then x else c) xs := rfl
      rw [hstep]
      by_cases hx : ok x ∧ rank c < rank x
      · rw [if_pos hx]
        obtain ⟨hfound, hmax⟩ := ih x
        have hle : rank x ≤ rank (greatest ok rank x xs) := by
          rcases hfound with heq | ⟨-, -, hlt⟩
          · rw [heq]
          · exact hlt.le
        refine ⟨Or.inr ?_, ?_⟩
        · rcases hfound with heq | ⟨hmem, hok, -⟩
          · rw [heq]
            exact ⟨List.mem_cons_self, hx.1, hx.2⟩
          · exact ⟨List.mem_cons_of_mem x hmem, hok, hx.2.trans_le hle⟩
        · intro y hy hok
          rcases List.mem_cons.mp hy with rfl | hy
          · exact hle
          · exact hmax y hy hok
      · rw [if_neg hx]
        obtain ⟨hfound, hmax⟩ := ih c
        refine ⟨hfound.imp_right fun h => ⟨List.mem_cons_of_mem x h.1, h.2⟩, ?_⟩
        intro y hy hok
        rcases List.mem_cons.mp hy with rfl | hy
        · have hle : rank y ≤ rank c := not_lt.mp fun hlt => hx ⟨hok, hlt⟩
          rcases hfound with heq | ⟨-, -, hlt⟩
          · rwa [heq]
          · exact hle.trans hlt.le
        · exact hmax y hy hok

end Greatest

/-! ### Insertions in a row -/

/-- **The last entry of a key stays.** -/
theorem lookup_foldl_insert {κ ν : Type*} [DecidableEq κ] {entries : List (κ × ν)} {k : κ}
    {v : ν} :
    (entries.foldl (fun f e => f.insert e.1 e.2) (∅ : Finmap fun _ : κ => ν)).lookup k = some v ↔
      ∃ pre post, entries = pre ++ (k, v) :: post ∧ ∀ e ∈ post, e.1 ≠ k := by
  -- from the back, where the last entry is
  induction entries using List.reverseRecOn with
  | nil => simp
  | append_singleton entries e ih =>
      rw [List.foldl_append, List.foldl_cons, List.foldl_nil]
      by_cases hk : k = e.1
      · subst hk
        rw [Finmap.lookup_insert, Option.some_inj]
        constructor
        · rintro rfl
          exact ⟨entries, [], rfl, by simp⟩
        · rintro ⟨pre, post, hsplit, hpost⟩
          rcases post.eq_nil_or_concat with rfl | ⟨init, last, rfl⟩
          · have hlast := (List.append_inj' hsplit rfl).2
            simp only [List.cons.injEq, and_true] at hlast
            rw [hlast]
          · -- an entry behind the one of the key is the last, which has the key
            rw [List.concat_eq_append, ← List.cons_append, ← List.append_assoc] at hsplit
            have hlast := (List.append_inj' hsplit rfl).2
            simp only [List.cons.injEq, and_true] at hlast
            exact absurd (by rw [hlast]) (hpost last (by simp))
      · rw [Finmap.lookup_insert_of_ne _ hk, ih]
        constructor
        · rintro ⟨pre, post, rfl, hpost⟩
          refine ⟨pre, post ++ [e], by simp, ?_⟩
          intro e' he'
          rcases List.mem_append.mp he' with h | h
          · exact hpost e' h
          · rw [List.mem_singleton.mp h]
            exact Ne.symm hk
        · rintro ⟨pre, post, hsplit, hpost⟩
          rcases post.eq_nil_or_concat with rfl | ⟨init, last, rfl⟩
          · have hlast := (List.append_inj' hsplit rfl).2
            simp only [List.cons.injEq, and_true] at hlast
            exact absurd (by rw [hlast]) hk
          · rw [List.concat_eq_append, ← List.cons_append, ← List.append_assoc] at hsplit
            refine ⟨pre, init, (List.append_inj' hsplit rfl).1, ?_⟩
            exact fun e' he' => hpost e' (by simp [he'])
