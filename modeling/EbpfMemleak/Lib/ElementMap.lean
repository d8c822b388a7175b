import Mathlib.Logic.Function.Basic

/-!
# EbpfMemleak.Lib.ElementMap

**A hash map made of preallocated elements.** A key is linked to an element, and
the element holds the value. A lookup returns the element itself: a pointer into
the map. Deleting the key unlinks the element without touching its value, and a
later insertion of any key may take it. So a pointer outlives the entry it was
looked up for, and what is read through it is whatever the element holds by then.

Which free element an insertion takes is not determined: `update` is told. It
fails when the element it is told is linked, so every order in which a map may
hand out its elements, and every failure for lack of one, is some choice.

`get` is the map without its elements; `get_delete` and `get_update` say that on it
the operations are those of an ordinary map.
-/

/-- A map from `κ` to `ν` whose values lie in elements `ε`. -/
structure ElementMap (κ ν ε : Type*) where
  /-- The element a key is linked to. -/
  element : κ → Option ε
  /-- The key an element is linked to. -/
  owner : ε → Option κ
  /-- What the element holds, linked or not. -/
  value : ε → ν
  linked : ∀ k e, element k = some e ↔ owner e = some k

namespace ElementMap

variable {κ ν ε : Type*}

/-- No key linked, every element holding `v`. -/
def empty (v : ν) : ElementMap κ ν ε where
  element := fun _ => none
  owner := fun _ => none
  value := fun _ => v
  linked := fun _ _ => by simp

/-- The value of a key. -/
def get (m : ElementMap κ ν ε) (k : κ) : Option ν := (m.element k).map m.value

theorem get_of_element {m : ElementMap κ ν ε} {k : κ} {e : ε} (h : m.element k = some e) :
    m.get k = some (m.value e) := by
  rw [get, h, Option.map_some]

/-- Every entry has a property. -/
def All (P : κ → ν → Prop) (m : ElementMap κ ν ε) : Prop := ∀ k v, m.get k = some v → P k v

theorem all_empty {P : κ → ν → Prop} (v : ν) : All P (empty v : ElementMap κ ν ε) :=
  fun _ _ h => nomatch h

variable [DecidableEq κ] [DecidableEq ε]

/-- Delete a key: its element, if any, becomes free and keeps its value. -/
def delete (m : ElementMap κ ν ε) (k : κ) : ElementMap κ ν ε where
  element := Function.update m.element k none
  owner := fun e => if m.element k = some e then none else m.owner e
  value := m.value
  linked := by
    intro k' e
    by_cases hk : k' = k
    · subst hk
      rw [Function.update_self]
      by_cases he : m.element k' = some e
      · simp [he]
      · rw [if_neg he, ← m.linked]
        simp [he]
    · rw [Function.update_of_ne hk]
      by_cases he : m.element k = some e
      · have howner : m.owner e = some k := (m.linked k e).mp he
        rw [if_pos he, m.linked, howner]
        simp [Ne.symm hk]
      · rw [if_neg he, m.linked]

/-- Store `v` under a key, taking the element `e` if it is free: the key is linked to
it, and the element the key had before becomes free. -/
def update (m : ElementMap κ ν ε) (e : ε) (k : κ) (v : ν) : ElementMap κ ν ε :=
  if hfree : m.owner e = none then
    { element := Function.update m.element k (some e)
      owner := fun e' =>
        if e' = e then some k else if m.element k = some e' then none else m.owner e'
      value := Function.update m.value e v
      linked := by
        intro k' e'
        have hnot (k'' : κ) : ¬ m.element k'' = some e := by
          rw [m.linked, hfree]
          simp
        by_cases hk : k' = k
        · subst hk
          rw [Function.update_self]
          by_cases he : e' = e
          · simp [he]
          · rw [if_neg he]
            by_cases hold : m.element k' = some e'
            · simp [hold, Ne.symm he]
            · rw [if_neg hold, ← m.linked]
              simp [hold, Ne.symm he]
        · rw [Function.update_of_ne hk]
          by_cases he : e' = e
          · subst he
            simp [hnot k', Ne.symm hk]
          · rw [if_neg he]
            by_cases hold : m.element k = some e'
            · have howner : m.owner e' = some k := (m.linked k e').mp hold
              rw [if_pos hold, m.linked, howner]
              simp [Ne.symm hk]
            · rw [if_neg hold, m.linked] }
  else m

@[simp] theorem value_delete (m : ElementMap κ ν ε) (k : κ) : (m.delete k).value = m.value := rfl

/-- A deletion takes no element. -/
theorem owner_delete {m : ElementMap κ ν ε} {e : ε} (h : m.owner e = none) (k : κ) :
    (m.delete k).owner e = none := by
  show (if m.element k = some e then none else m.owner e) = none
  rw [h, ite_self]

/-- An insertion writes to no other element than the one it takes. -/
theorem value_update_of_ne {m : ElementMap κ ν ε} {e e' : ε} {k : κ} {v : ν} (h : e' ≠ e) :
    (m.update e k v).value e' = m.value e' := by
  unfold update
  split
  case isTrue => exact Function.update_of_ne h ..
  case isFalse => rfl

/-- After an insertion an element holds what it held, or the inserted value. -/
theorem value_update_cases (m : ElementMap κ ν ε) (e e' : ε) (k : κ) (v : ν) :
    (m.update e k v).value e' = m.value e' ∨ (m.update e k v).value e' = v := by
  unfold update
  split
  case isFalse => exact Or.inl rfl
  case isTrue =>
    by_cases he : e' = e
    · exact Or.inr (he ▸ Function.update_self ..)
    · exact Or.inl (Function.update_of_ne he ..)

theorem update_of_linked {m : ElementMap κ ν ε} {e : ε} (h : m.owner e ≠ none) (k : κ) (v : ν) :
    m.update e k v = m := dif_neg h

theorem get_delete (m : ElementMap κ ν ε) (k k' : κ) :
    (m.delete k).get k' = if k' = k then none else m.get k' := by
  unfold get delete
  by_cases hk : k' = k
  · rw [if_pos hk, hk]
    simp
  · rw [if_neg hk]
    simp [Function.update_of_ne hk]

theorem get_update {m : ElementMap κ ν ε} {e : ε} (h : m.owner e = none) (k k' : κ) (v : ν) :
    (m.update e k v).get k' = if k' = k then some v else m.get k' := by
  unfold get update
  rw [dif_pos h]
  by_cases hk : k' = k
  · rw [if_pos hk, hk]
    simp
  · rw [if_neg hk]
    dsimp only
    rw [Function.update_of_ne hk]
    cases he : m.element k' with
    | none => rfl
    | some e' =>
        -- the element of another key is linked, so it is not the one taken
        have hne : e' ≠ e := by
          intro heq
          rw [m.linked, heq, h] at he
          cases he
        rw [Option.map_some, Option.map_some, Function.update_of_ne hne]

/-! ### All entries -/

/-- An entry that a deletion leaves was there before. -/
theorem get_of_get_delete {m : ElementMap κ ν ε} {k k' : κ} {v : ν}
    (h : (m.delete k).get k' = some v) : m.get k' = some v := by
  rw [get_delete] at h
  split at h
  case isTrue => cases h
  case isFalse => exact h

/-- An entry after an insertion is the inserted one, or was there before. -/
theorem get_of_get_update {m : ElementMap κ ν ε} {e : ε} {k k' : κ} {v v' : ν}
    (h : (m.update e k v).get k' = some v') : (k' = k ∧ v' = v) ∨ m.get k' = some v' := by
  by_cases hfree : m.owner e = none
  · rw [get_update hfree] at h
    split at h
    case isTrue hk => exact Or.inl ⟨hk, (Option.some.inj h).symm⟩
    case isFalse => exact Or.inr h
  · rw [update_of_linked hfree] at h
    exact Or.inr h

variable {P : κ → ν → Prop} {m : ElementMap κ ν ε}

theorem All.delete (h : All P m) (k : κ) : All P (m.delete k) :=
  fun k' v hv => h k' v (get_of_get_delete hv)

theorem All.update (h : All P m) {e : ε} {k : κ} {v : ν} (hv : P k v) :
    All P (m.update e k v) := by
  intro k' v' hget
  rcases get_of_get_update hget with ⟨rfl, rfl⟩ | hget
  · exact hv
  · exact h k' v' hget

end ElementMap
