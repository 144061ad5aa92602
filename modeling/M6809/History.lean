/-!
A bounded history: it keeps the entries recorded last. Entries wait in two lists, so that recording
takes constant time on average. The main statements say that recording appends the entry and drops
from the front what no longer fits, so that of many entries the last are kept.
-/
namespace M6809

structure History (α : Type) where
  /-- How many more entries fit without dropping one. -/
  room : Nat
  /-- The older entries, oldest first. -/
  older : List α
  /-- The newer entries, newest first. -/
  newer : List α
deriving DecidableEq, Repr

namespace History

variable {α : Type}

def ofCapacity (capacity : Nat) : History α := ⟨capacity, [], []⟩

/-- Oldest first. -/
def toList (h : History α) : List α := h.older ++ h.newer.reverse

def capacity (h : History α) : Nat := h.room + h.toList.length

/-- Records an entry in the place of the oldest; there is none when nothing can be kept. -/
def replaceOldest (h : History α) (entry : α) : History α :=
  match h.older with
  | _ :: older => { h with older, newer := entry :: h.newer }
  | [] =>
    match h.newer.reverse with
    | _ :: older => { h with older, newer := [entry] }
    | [] => h

def record (h : History α) (entry : α) : History α :=
  match h.room with
  | room + 1 => { h with room, newer := entry :: h.newer }
  | 0 => h.replaceOldest entry

@[simp] theorem toList_ofCapacity (n : Nat) : (ofCapacity n : History α).toList = [] := rfl

@[simp] theorem capacity_ofCapacity (n : Nat) : (ofCapacity n : History α).capacity = n := rfl

theorem toList_replaceOldest (h : History α) (entry : α) :
    (h.replaceOldest entry).toList = (h.toList ++ [entry]).drop 1 := by
  obtain ⟨room, older, newer⟩ := h
  cases older with
  | cons first older => simp [replaceOldest, toList]
  | nil => cases hnewer : newer.reverse <;> simp [replaceOldest, toList, hnewer]

theorem room_replaceOldest (h : History α) (entry : α) :
    (h.replaceOldest entry).room = h.room := by
  obtain ⟨room, older, newer⟩ := h
  cases older with
  | cons first older => rfl
  | nil => cases hnewer : newer.reverse <;> simp [replaceOldest, hnewer]

theorem toList_record (h : History α) (entry : α) :
    (h.record entry).toList = (h.toList ++ [entry]).drop (h.toList.length + 1 - h.capacity) := by
  obtain ⟨room, older, newer⟩ := h
  cases room with
  | succ room =>
    have hfits : (older ++ newer.reverse).length + 1 -
        (room + 1 + (older ++ newer.reverse).length) = 0 := by omega
    simp only [record, toList, capacity, hfits, List.drop_zero, List.reverse_cons,
      List.append_assoc]
  | zero =>
    simp only [record, toList_replaceOldest, capacity]
    congr 1
    omega

@[simp] theorem capacity_record (h : History α) (entry : α) :
    (h.record entry).capacity = h.capacity := by
  obtain ⟨room, older, newer⟩ := h
  cases room with
  | succ room =>
    simp only [record, capacity, toList, List.length_append, List.length_reverse,
      List.length_cons]
    omega
  | zero =>
    simp only [record, capacity, toList_replaceOldest, room_replaceOldest, List.length_drop,
      List.length_append, List.length_singleton]
    omega

theorem length_toList_le (h : History α) : h.toList.length ≤ h.capacity := Nat.le_add_left _ _

theorem toList_foldl_record (h : History α) (entries : List α) :
    (entries.foldl record h).toList =
      (h.toList ++ entries).drop (h.toList.length + entries.length - h.capacity) := by
  induction entries generalizing h with
  | nil =>
    have hfits : h.toList.length + 0 - h.capacity = 0 :=
      Nat.sub_eq_zero_of_le h.length_toList_le
    rw [List.foldl_nil, List.append_nil, List.length_nil, hfits, List.drop_zero]
  | cons entry rest ih =>
    have hdropped : h.toList.length + 1 - h.capacity ≤ (h.toList ++ [entry]).length := by
      rw [List.length_append, List.length_singleton]
      omega
    rw [List.foldl_cons, ih, capacity_record, toList_record, List.length_drop,
      ← List.drop_append_of_le_length hdropped, List.drop_drop, List.append_assoc,
      List.singleton_append, List.length_append, List.length_singleton, List.length_cons]
    have hfits := h.length_toList_le
    congr 1
    omega

end History

end M6809
