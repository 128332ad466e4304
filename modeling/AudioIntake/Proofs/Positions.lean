import AudioIntake.Proofs.Distance
import AudioIntake.Proofs.Tables

/-!
# Positions and their numbers

The number of a packet is the remainder of its position in the stream. Positions less than a whole
circle apart keep their numbers apart, and `delta` is the difference of positions that lie within the
guard band of each other. A table keyed by numbers mirrors one keyed by positions when the keys of
the latter lie between two bounds less than a circle apart and it holds the same values.
-/

namespace AudioIntake

namespace SeqNo

/-- The number that the packet at a position carries. -/
def ofPosition (k : Int) : SeqNo := ofNat (k % 65536).toNat

theorem val_ofPosition (k : Int) : ((ofPosition k).val : Int) = k % 65536 := by
  simp only [ofPosition, val_ofNat]
  omega

theorem ofPosition_add (k : Int) (n : Nat) : ofPosition (k + n) = ofPosition k + n := by
  apply ext
  have hk := val_ofPosition k
  have hkn := val_ofPosition (k + n)
  rw [val_add]
  omega

theorem ofPosition_add_one (k : Int) : ofPosition (k + 1) = (ofPosition k).next :=
  ofPosition_add k 1

theorem ofPosition_inj {j k : Int} (h : ofPosition j = ofPosition k) (hlt : j < k + 65536)
    (hgt : k < j + 65536) : j = k := by
  have hj := val_ofPosition j
  have hk := val_ofPosition k
  rw [h] at hj
  omega

theorem stepsTo_ofPosition {j k : Int} (hle : j ≤ k) (hlt : k < j + 65536) :
    ((ofPosition j).stepsTo (ofPosition k) : Int) = k - j := by
  have hj := val_ofPosition j
  have hk := val_ofPosition k
  unfold stepsTo
  omega

/-- A position that is behind is reached by going around almost the whole circle. -/
theorem stepsTo_ofPosition_of_lt {j k : Int} (hlt : k < j) (hgt : j < k + 65536) :
    ((ofPosition j).stepsTo (ofPosition k) : Int) = k - j + 65536 := by
  have hj := val_ofPosition j
  have hk := val_ofPosition k
  unfold stepsTo
  omega

theorem delta_ofPosition {j k : Int} (h : (k - j).natAbs ≤ 8191) :
    (ofPosition k).delta (ofPosition j) = k - j := by
  have hj := val_ofPosition j
  have hk := val_ofPosition k
  have hdelta := delta_regions (ofPosition k) (ofPosition j)
  omega

end SeqNo

open SeqNo (ofPosition)

/-! ### Mirrored tables -/

structure Mirrored {β : Type} (lo hi : Int) (i : Std.ExtTreeMap Int β)
    (m : Std.ExtTreeMap SeqNo β) : Prop where
  width : hi < lo + 65536
  near : ∀ {k}, k ∈ i → lo ≤ k ∧ k ≤ hi
  getElem?_mem : ∀ {k}, k ∈ i → m[ofPosition k]? = i[k]?
  onto : ∀ {n}, n ∈ m → ∃ k ∈ i, ofPosition k = n

namespace Mirrored

variable {β : Type} {lo hi k : Int} {i : Std.ExtTreeMap Int β} {m : Std.ExtTreeMap SeqNo β} {v : β}

theorem empty (hwidth : hi < lo + 65536) : Mirrored lo hi (∅ : Std.ExtTreeMap Int β) ∅ where
  width := hwidth
  near hk := absurd hk Std.ExtTreeMap.not_mem_empty
  getElem?_mem hk := absurd hk Std.ExtTreeMap.not_mem_empty
  onto hn := absurd hn Std.ExtTreeMap.not_mem_empty

theorem rebound (h : Mirrored lo hi i m) {lo' hi' : Int} (hwidth : hi' < lo' + 65536)
    (hnear : ∀ {k}, k ∈ i → lo' ≤ k ∧ k ≤ hi') : Mirrored lo' hi' i m :=
  { h with width := hwidth, near := hnear }

theorem mem_iff (h : Mirrored lo hi i m) (hlo : k < lo + 65536) (hhi : hi - 65536 < k) :
    ofPosition k ∈ m ↔ k ∈ i := by
  constructor
  · intro hmem
    obtain ⟨j, hj, heq⟩ := h.onto hmem
    obtain ⟨hle, hge⟩ := h.near hj
    rwa [← SeqNo.ofPosition_inj heq (by omega) (by omega)]
  · intro hmem
    rw [Std.ExtTreeMap.mem_iff_isSome_getElem?, h.getElem?_mem hmem]
    exact Std.ExtTreeMap.mem_iff_isSome_getElem?.mp hmem

theorem getElem?_eq (h : Mirrored lo hi i m) (hlo : k < lo + 65536) (hhi : hi - 65536 < k) :
    m[ofPosition k]? = i[k]? := by
  by_cases hk : k ∈ i
  · exact h.getElem?_mem hk
  · have hnot : ofPosition k ∉ m := fun hmem => hk ((h.mem_iff hlo hhi).mp hmem)
    rw [Std.ExtTreeMap.getElem?_eq_none hk, Std.ExtTreeMap.getElem?_eq_none hnot]

theorem getD_eq (h : Mirrored lo hi i m) (hlo : k < lo + 65536) (hhi : hi - 65536 < k) (v : β) :
    m.getD (ofPosition k) v = i.getD k v := by
  rw [Std.ExtTreeMap.getD_eq_getD_getElem?, Std.ExtTreeMap.getD_eq_getD_getElem?,
    h.getElem?_eq hlo hhi]

theorem contains_eq (h : Mirrored lo hi i m) (hlo : k < lo + 65536) (hhi : hi - 65536 < k) :
    m.contains (ofPosition k) = i.contains k := by
  rw [Bool.eq_iff_iff, Std.ExtTreeMap.contains_iff_mem, Std.ExtTreeMap.contains_iff_mem,
    h.mem_iff hlo hhi]

theorem isEmpty_eq (h : Mirrored lo hi i m) : m.isEmpty = i.isEmpty := by
  rw [Bool.eq_iff_iff, Std.ExtTreeMap.isEmpty_iff, Std.ExtTreeMap.isEmpty_iff]
  constructor
  · rintro rfl
    apply Std.ExtTreeMap.eq_empty_iff_forall_not_mem.mpr
    intro k hk
    have hk' := (h.mem_iff (k := k) (by have := h.near hk; have := h.width; omega)
      (by have := h.near hk; have := h.width; omega)).mpr hk
    exact Std.ExtTreeMap.not_mem_empty hk'
  · rintro rfl
    apply Std.ExtTreeMap.eq_empty_iff_forall_not_mem.mpr
    intro n hn
    obtain ⟨k, hk, -⟩ := h.onto hn
    exact Std.ExtTreeMap.not_mem_empty hk

theorem insert (h : Mirrored lo hi i m) (hlo : lo ≤ k) (hhi : k ≤ hi) (v : β) :
    Mirrored lo hi (i.insert k v) (m.insert (ofPosition k) v) where
  width := h.width
  near {j} hj := by
    rw [Std.ExtTreeMap.mem_insert, Std.LawfulEqCmp.compare_eq_iff_eq] at hj
    rcases hj with rfl | hj
    · exact ⟨hlo, hhi⟩
    · exact h.near hj
  getElem?_mem {j} hj := by
    rw [Std.ExtTreeMap.mem_insert, Std.LawfulEqCmp.compare_eq_iff_eq] at hj
    rw [Std.ExtTreeMap.getElem?_insert, Std.ExtTreeMap.getElem?_insert]
    simp only [Std.LawfulEqCmp.compare_eq_iff_eq]
    by_cases hkj : k = j
    · rw [if_pos hkj, if_pos (by rw [hkj])]
    · have hj := hj.resolve_left hkj
      have hwidth := h.width
      obtain ⟨hle, hge⟩ := h.near hj
      have hne : ofPosition k ≠ ofPosition j := fun heq =>
        hkj (SeqNo.ofPosition_inj heq (by omega) (by omega))
      rw [if_neg hkj, if_neg hne]
      exact h.getElem?_mem hj
  onto {n} hn := by
    rw [Std.ExtTreeMap.mem_insert, Std.LawfulEqCmp.compare_eq_iff_eq] at hn
    rcases hn with rfl | hn
    · exact ⟨k, Std.ExtTreeMap.mem_insert_self, rfl⟩
    · obtain ⟨j, hj, rfl⟩ := h.onto hn
      exact ⟨j, Std.ExtTreeMap.mem_insert.mpr (Or.inr hj), rfl⟩

theorem erase (h : Mirrored lo hi i m) (hlo : k < lo + 65536) (hhi : hi - 65536 < k) :
    Mirrored lo hi (i.erase k) (m.erase (ofPosition k)) where
  width := h.width
  near hj := h.near (Std.ExtTreeMap.mem_of_mem_erase hj)
  getElem?_mem {j} hj := by
    obtain ⟨hkj, hj⟩ := Std.ExtTreeMap.mem_erase.mp hj
    rw [Ne, Std.LawfulEqCmp.compare_eq_iff_eq] at hkj
    obtain ⟨hle, hge⟩ := h.near hj
    have hne : ofPosition k ≠ ofPosition j := fun heq =>
      hkj (SeqNo.ofPosition_inj heq (by omega) (by omega))
    rw [Std.ExtTreeMap.getElem?_erase, Std.ExtTreeMap.getElem?_erase]
    simp only [Std.LawfulEqCmp.compare_eq_iff_eq, hkj, hne, if_false]
    exact h.getElem?_mem hj
  onto {n} hn := by
    obtain ⟨hne, hn⟩ := Std.ExtTreeMap.mem_erase.mp hn
    obtain ⟨j, hj, rfl⟩ := h.onto hn
    refine ⟨j, Std.ExtTreeMap.mem_erase.mpr ⟨fun heq => hne ?_, hj⟩, rfl⟩
    rw [Std.LawfulEqCmp.compare_eq_iff_eq] at heq ⊢
    rw [heq]

theorem foldl_erase (h : Mirrored lo hi i m) (ks : List Int)
    (hks : ∀ k ∈ ks, k < lo + 65536 ∧ hi - 65536 < k) :
    Mirrored lo hi (ks.foldl (fun i k => i.erase k) i)
      ((ks.map ofPosition).foldl (fun m n => m.erase n) m) := by
  induction ks generalizing i m with
  | nil => exact h
  | cons k ks ih =>
      obtain ⟨hlo, hhi⟩ := hks k List.mem_cons_self
      rw [List.map_cons, List.foldl_cons, List.foldl_cons]
      exact ih (h.erase hlo hhi) fun j hj => hks j (List.mem_cons_of_mem k hj)

theorem foldl_count {i : Std.ExtTreeMap Int Nat} {m : Std.ExtTreeMap SeqNo Nat}
    (h : Mirrored lo hi i m) (ks : List Int) (hks : ∀ k ∈ ks, lo ≤ k ∧ k ≤ hi) :
    Mirrored lo hi (ks.foldl (fun i k => i.insert k (i.getD k 0 + 1)) i)
      ((ks.map ofPosition).foldl (fun m n => m.insert n (m.getD n 0 + 1)) m) := by
  induction ks generalizing i m with
  | nil => exact h
  | cons k ks ih =>
      obtain ⟨hle, hge⟩ := hks k List.mem_cons_self
      have hwidth := h.width
      rw [List.map_cons, List.foldl_cons, List.foldl_cons, h.getD_eq (by omega) (by omega)]
      exact ih (h.insert hle hge _) fun j hj => hks j (List.mem_cons_of_mem k hj)

/-- The entries are the same but for the order in which they are listed. -/
theorem toList_perm (h : Mirrored lo hi i m) :
    m.toList.Perm (i.toList.map fun e => (ofPosition e.1, e.2)) := by
  have hwidth := h.width
  have hnear : ∀ e ∈ i.toList, lo ≤ e.1 ∧ e.1 ≤ hi := by
    intro e he
    have hget := Std.ExtTreeMap.mem_toList_iff_getElem?_eq_some.mp he
    exact h.near (Std.ExtTreeMap.getElem?_eq_some_iff.mp hget).1
  refine (List.perm_ext_iff_of_nodup ?_ ?_).mpr ?_
  · exact Std.ExtTreeMap.distinct_keys_toList.imp fun hne heq => hne (by simp [heq])
  · refine List.pairwise_map.mpr (Std.ExtTreeMap.distinct_keys_toList.imp_of_mem ?_)
    intro a b ha hb hne heq
    obtain ⟨hloa, hhia⟩ := hnear a ha
    obtain ⟨hlob, hhib⟩ := hnear b hb
    have hsame := SeqNo.ofPosition_inj (Prod.mk.inj heq).1 (by omega) (by omega)
    exact hne (Std.LawfulEqCmp.compare_eq_iff_eq.mpr hsame)
  · rintro ⟨n, v⟩
    rw [Std.ExtTreeMap.mem_toList_iff_getElem?_eq_some, List.mem_map]
    constructor
    · intro hget
      obtain ⟨hmem, -⟩ := Std.ExtTreeMap.getElem?_eq_some_iff.mp hget
      obtain ⟨k, hk, rfl⟩ := h.onto hmem
      rw [h.getElem?_mem hk] at hget
      exact ⟨(k, v), Std.ExtTreeMap.mem_toList_iff_getElem?_eq_some.mpr hget, rfl⟩
    · rintro ⟨e, he, heq⟩
      obtain ⟨rfl, rfl⟩ := Prod.mk.inj heq
      obtain ⟨hlo, hhi⟩ := hnear e he
      rw [h.getElem?_eq (by omega) (by omega)]
      exact Std.ExtTreeMap.mem_toList_iff_getElem?_eq_some.mp he

theorem values_perm (h : Mirrored lo hi i m) : m.values.Perm i.values := by
  have hvalues : (i.toList.map fun e => (ofPosition e.1, e.2)).map Prod.snd = i.values := by
    rw [List.map_map, Tables.values_eq]
    rfl
  calc
    m.values = m.toList.map Prod.snd := Tables.values_eq m
    List.Perm _ ((i.toList.map fun e => (ofPosition e.1, e.2)).map Prod.snd) :=
      h.toList_perm.map Prod.snd
    _ = i.values := hvalues

theorem size_eq (h : Mirrored lo hi i m) : m.size = i.size := by
  calc
    m.size = m.toList.length := Std.ExtTreeMap.length_toList.symm
    _ = (i.toList.map fun e => (ofPosition e.1, e.2)).length := h.toList_perm.length_eq
    _ = i.toList.length := List.length_map _
    _ = i.size := Std.ExtTreeMap.length_toList

end Mirrored

end AudioIntake
