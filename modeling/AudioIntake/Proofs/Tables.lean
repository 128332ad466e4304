import Mathlib.Data.List.Nodup
import Std.Data.ExtTreeMap

/-!
# Tables

What a table holds after all of a list of keys are erased from it, or counted up by one; what its
values are; and the largest of a list of distances to its keys.
-/

namespace AudioIntake.Tables

variable {κ : Type} [DecidableEq κ] [Ord κ] [Std.TransOrd κ] [Std.LawfulEqOrd κ]

theorem getElem?_foldl_erase {β : Type} (ks : List κ) (m : Std.ExtTreeMap κ β) (a : κ) :
    (ks.foldl (fun m k => m.erase k) m)[a]? = if a ∈ ks then none else m[a]? := by
  induction ks generalizing m with
  | nil => simp
  | cons k ks ih =>
      rw [List.foldl_cons, ih, Std.ExtTreeMap.getElem?_erase]
      by_cases hak : k = a
      · simp [hak]
      · have hother : a ≠ k := fun h => hak h.symm
        simp [hak, hother]

theorem getElem?_foldl_count (ks : List κ) (hks : ks.Nodup) (m : Std.ExtTreeMap κ Nat) (a : κ) :
    (ks.foldl (fun m k => m.insert k (m.getD k 0 + 1)) m)[a]? =
      if a ∈ ks then some (m.getD a 0 + 1) else m[a]? := by
  induction ks generalizing m with
  | nil => simp
  | cons k ks ih =>
      obtain ⟨hk, hks⟩ := List.nodup_cons.mp hks
      rw [List.foldl_cons, ih hks]
      by_cases hak : k = a
      · subst hak
        simp [hk]
      · have hother : a ≠ k := fun h => hak h.symm
        simp [Std.ExtTreeMap.getD_eq_getD_getElem?, Std.ExtTreeMap.getElem?_insert, hak, hother]

omit [DecidableEq κ] [Std.LawfulEqOrd κ] in
theorem values_eq {β : Type} (m : Std.ExtTreeMap κ β) : m.values = m.toList.map Prod.snd := by
  obtain ⟨m⟩ := m
  induction m using Std.ExtDTreeMap.inductionOn with
  | _ m =>
      change m.inner.values = (Std.DTreeMap.Internal.Impl.Const.toList m.inner).map Prod.snd
      rw [Std.DTreeMap.Internal.Impl.values_eq_map_snd,
        Std.DTreeMap.Internal.Impl.Const.toList_eq_toListModel_map]
      simp

omit [DecidableEq κ] in
theorem mem_values {β : Type} {m : Std.ExtTreeMap κ β} {k : κ} {v : β} (h : m[k]? = some v) :
    v ∈ m.values := by
  rw [values_eq, List.mem_map]
  exact ⟨(k, v), Std.ExtTreeMap.mem_toList_iff_getElem?_eq_some.mpr h, rfl⟩

/-- Taking an entry out of a table takes its value off the values, and no other. -/
theorem values_perm_of_getElem? {β : Type} {m : Std.ExtTreeMap κ β} {k : κ} {v : β}
    (h : m[k]? = some v) : m.values.Perm (v :: (m.erase k).values) := by
  have hentries : m.toList.Perm ((k, v) :: (m.erase k).toList) := by
    have hnodup : ∀ m : Std.ExtTreeMap κ β, m.toList.Nodup := fun m =>
      Std.ExtTreeMap.distinct_keys_toList.imp fun hne heq => hne (by simp [heq])
    have herased : (k, v) ∉ (m.erase k).toList := by
      simp [Std.ExtTreeMap.mem_toList_iff_getElem?_eq_some]
    apply (List.perm_ext_iff_of_nodup (hnodup m) (List.nodup_cons.mpr ⟨herased, hnodup _⟩)).mpr
    rintro ⟨j, w⟩
    simp only [List.mem_cons, Std.ExtTreeMap.mem_toList_iff_getElem?_eq_some,
      Std.ExtTreeMap.getElem?_erase, Std.LawfulEqCmp.compare_eq_iff_eq, Prod.mk.injEq]
    by_cases hkj : k = j
    · subst hkj
      simp [h, eq_comm]
    · simp [hkj, Ne.symm hkj]
  rw [values_eq, values_eq]
  exact hentries.map Prod.snd

theorem values_insert_perm {β : Type} {m : Std.ExtTreeMap κ β} {k : κ} (h : k ∉ m) (v : β) :
    (m.insert k v).values.Perm (v :: m.values) := by
  have hback : (m.insert k v).erase k = m := by
    apply Std.ExtTreeMap.ext_getElem?
    intro j
    simp only [Std.ExtTreeMap.getElem?_erase, Std.ExtTreeMap.getElem?_insert,
      Std.LawfulEqCmp.compare_eq_iff_eq]
    by_cases hkj : k = j
    · subst hkj
      rw [if_pos rfl, Std.ExtTreeMap.getElem?_eq_none h]
    · rw [if_neg hkj, if_neg hkj]
  have hentry : (m.insert k v)[k]? = some v := Std.ExtTreeMap.getElem?_insert_self
  have hout := values_perm_of_getElem? hentry
  rwa [hback] at hout

/-- The values of a table are that of any one key, if it has one, and those of the others. -/
theorem values_perm {β : Type} (m : Std.ExtTreeMap κ β) (k : κ) :
    m.values.Perm (m[k]?.toList ++ (m.erase k).values) := by
  cases hentry : m[k]? with
  | some v => exact values_perm_of_getElem? hentry
  | none =>
      have hsame : m.erase k = m := by
        apply Std.ExtTreeMap.ext_getElem?
        intro j
        simp only [Std.ExtTreeMap.getElem?_erase, Std.LawfulEqCmp.compare_eq_iff_eq]
        split
        · rename_i hkj
          rw [← hkj, hentry]
        · rfl
      rw [hsame]
      exact List.Perm.rfl

omit [DecidableEq κ] [Std.LawfulEqOrd κ] in
@[simp] theorem length_values {β : Type} (m : Std.ExtTreeMap κ β) : m.values.length = m.size := by
  rw [values_eq, List.length_map, Std.ExtTreeMap.length_toList]

omit [Std.LawfulEqOrd κ] [DecidableEq κ] in
@[simp] theorem values_empty {β : Type} : (∅ : Std.ExtTreeMap κ β).values = [] := by
  rw [← List.length_eq_zero_iff, length_values, Std.ExtTreeMap.size_empty]

omit [DecidableEq κ] [Ord κ] [Std.TransOrd κ] [Std.LawfulEqOrd κ] in
theorem lt_foldl_max (f : κ → Int) (ks : List κ) (start bound : Int) :
    bound < ks.foldl (fun far k => max far (f k)) start ↔
      bound < start ∨ ∃ k ∈ ks, bound < f k := by
  induction ks generalizing start with
  | nil => simp
  | cons k ks ih =>
      rw [List.foldl_cons, ih]
      simp only [List.mem_cons, exists_eq_or_imp]
      rw [← or_assoc]
      have hmax : bound < max start (f k) ↔ bound < start ∨ bound < f k := by omega
      rw [hmax]

end AudioIntake.Tables
