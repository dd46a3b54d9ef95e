import Mathlib.Data.List.Induction
import Mathlib.Data.List.Nodup

/-
  Entering names under the first slot with a key.

  An event names a key and someone to enter under it; it is
  entered in the first slot that has the key, and nothing
  looks whether it is there already. Every slot then holds
  exactly those that named its key, each once, if and only
  if no named key has two slots and no event is repeated.

  Key definitions include:
    * `FirstMatch.slot`
    * `FirstMatch.entered`

  Key rules include:
    * `FirstMatch.entered_concat`
    * `FirstMatch.entered_exact_iff`
    * `FirstMatch.slots_found_iff`
-/

------------------------------------------------------------
-- The First Slot
------------------------------------------------------------

namespace FirstMatch

variable {ι κ α : Type*} [DecidableEq κ]

/- The first slot with a key. -/
def slot
    (key : ι → κ)
    (slots : List ι)
    (k : κ) : Option ι :=
  slots.find? fun i => key i = k

variable {key : ι → κ} {slots : List ι} {k : κ} {i : ι}

theorem mem_of_slot
    (h : slot key slots k = some i) :
    i ∈ slots :=
  List.mem_of_find?_eq_some h

theorem key_of_slot
    (h : slot key slots k = some i) :
    key i = k := by
  have hKey := List.find?_some h
  simpa using hKey

/- Some slot is found for the key of a slot. -/
theorem exists_slot
    (hMem : i ∈ slots) :
    ∃ j, slot key slots (key i) = some j := by
  cases hSlot : slot key slots (key i) with
  | some j => exact ⟨j, rfl⟩
  | none =>
      have hNone := List.find?_eq_none.mp hSlot i hMem
      simp at hNone

------------------------------------------------------------
-- Looking Keys Up
------------------------------------------------------------

/- A slot that shares its key with no other is found for it. -/
theorem slot_of_nodup
    (hKeys : (slots.map key).Nodup)
    (hMem : i ∈ slots) :
    slot key slots (key i) = some i := by
  have hFound : ∃ j, slot key slots (key i) = some j :=
    exists_slot hMem
  rcases hFound with ⟨j, hSlot⟩
  have hSame : j = i :=
    List.inj_on_of_nodup_map hKeys (mem_of_slot hSlot) hMem
      (key_of_slot hSlot)
  rw [hSlot, hSame]

/- What is found for some keys has these keys. -/
theorem map_key_of_slots
    {keys : List κ}
    {found : List ι}
    (hFound : keys.map (slot key slots) = found.map some) :
    found.map key = keys := by
  induction keys generalizing found with
  | nil =>
      cases found with
      | nil => rfl
      | cons i found => cases hFound
  | cons k keys ih =>
      cases found with
      | nil => cases hFound
      | cons i found =>
          rw [List.map_cons, List.map_cons,
            List.cons.injEq] at hFound
          rw [List.map_cons, key_of_slot hFound.1,
            ih hFound.2]

/-
  Looking up distinct keys, one after the other, finds every
  slot once if and only if they are the keys of the slots.
-/
theorem slots_found_iff
    {keys : List κ}
    (hKeys : keys.Nodup) :
    (∃ found : List ι,
        keys.map (slot key slots) = found.map some ∧
          found.Perm slots) ↔
      (slots.map key).Perm keys := by
  constructor
  · rintro ⟨found, hFound, hEach⟩
    rw [← map_key_of_slots hFound]
    exact (hEach.map key).symm
  · intro hPerm
    have hDistinct : (slots.map key).Nodup :=
      hPerm.nodup_iff.mpr hKeys
    have hAll :
        ∀ ks : List κ, (∀ k ∈ ks, k ∈ slots.map key) →
          ∃ found : List ι,
            ks.map (slot key slots) = found.map some := by
      intro ks hMem
      induction ks with
      | nil => exact ⟨[], rfl⟩
      | cons k ks ih =>
          rw [List.forall_mem_cons] at hMem
          rcases ih hMem.2 with ⟨found, hFound⟩
          rcases List.mem_map.mp hMem.1 with ⟨i, hi, rfl⟩
          refine ⟨i :: found, ?_⟩
          rw [List.map_cons, List.map_cons, hFound,
            slot_of_nodup hDistinct hi]
    rcases hAll keys fun k hk => hPerm.mem_iff.mpr hk with
      ⟨found, hFound⟩
    have hFoundKeys := map_key_of_slots hFound
    refine ⟨found, hFound, ?_⟩
    have hSameKeys :
        (found.map key).Perm (slots.map key) := by
      rw [hFoundKeys]
      exact hPerm.symm
    have hNodup : (found.map key).Nodup := by
      rw [hFoundKeys]
      exact hKeys
    rw [List.perm_ext_iff_of_nodup hNodup.of_map
      hDistinct.of_map]
    intro i
    constructor
    · intro hi
      have hSome : some i ∈ keys.map (slot key slots) := by
        rw [hFound]
        exact List.mem_map_of_mem hi
      rcases List.mem_map.mp hSome with ⟨k, -, hSlot⟩
      exact mem_of_slot hSlot
    · intro hi
      have hKey : key i ∈ keys :=
        hPerm.mem_iff.mp (List.mem_map_of_mem hi)
      have hSome : some i ∈ found.map some := by
        rw [← hFound]
        exact List.mem_map.mpr
          ⟨key i, hKey, slot_of_nodup hDistinct hi⟩
      rcases List.mem_map.mp hSome with ⟨j, hj, hSame⟩
      rw [← Option.some.inj hSame]
      exact hj

------------------------------------------------------------
-- Entries
------------------------------------------------------------

variable [DecidableEq ι]

/- Who is entered in a slot, the latest first. -/
def entered
    (key : ι → κ)
    (slots : List ι)
    (events : List (α × κ))
    (i : ι) : List α :=
  ((events.filter fun e =>
    slot key slots e.2 = some i).map Prod.fst).reverse

variable {events : List (α × κ)} {a : α}

@[simp] theorem entered_nil :
    entered key slots ([] : List (α × κ)) i = [] := by
  simp [entered]

/- One more event enters a name in front. -/
theorem entered_concat
    (events : List (α × κ))
    (e : α × κ) :
    entered key slots (events ++ [e]) i =
      if slot key slots e.2 = some i then
        e.1 :: entered key slots events i
      else
        entered key slots events i := by
  by_cases hSlot : slot key slots e.2 = some i
  · simp [entered, hSlot]
  · simp [entered, hSlot]

theorem mem_entered :
    a ∈ entered key slots events i ↔
      ∃ k, (a, k) ∈ events ∧
        slot key slots k = some i := by
  simp [entered]

/- Who named the key of a slot that is found for it. -/
theorem mem_entered_key
    (hSlot : slot key slots (key i) = some i) :
    a ∈ entered key slots events i ↔
      (a, key i) ∈ events := by
  rw [mem_entered]
  constructor
  · rintro ⟨k, hMem, hFound⟩
    rw [key_of_slot hFound]
    exact hMem
  · exact fun hMem => ⟨key i, hMem, hSlot⟩

variable [DecidableEq α]

/- And how often. -/
theorem count_entered
    (hSlot : slot key slots (key i) = some i) :
    (entered key slots events i).count a =
      events.count (a, key i) := by
  induction events using List.reverseRecOn with
  | nil => simp
  | append_singleton events e ih =>
      rcases e with ⟨b, k⟩
      rw [entered_concat, List.count_append]
      by_cases hKey : k = key i
      · subst hKey
        rw [if_pos hSlot, List.count_cons, ih]
        by_cases hName : b = a
        · simp [hName]
        · simp [hName]
      · have hOther : slot key slots k ≠ some i :=
          fun hFound => hKey (key_of_slot hFound).symm
        rw [if_neg hOther, ih]
        simp [hKey]

/- No named key has two slots, and no event is repeated. -/
structure Exact
    (key : ι → κ)
    (slots : List ι)
    (events : List (α × κ)) : Prop where
  unique :
    ∀ i ∈ slots, ∀ j ∈ slots, key i = key j →
      (∃ a, (a, key i) ∈ events) → i = j
  once :
    ∀ i ∈ slots, ∀ a, events.count (a, key i) ≤ 1

omit [DecidableEq ι] in
/- So it is where keys and events are all different. -/
theorem Exact.of_nodup
    {key : ι → κ}
    {slots : List ι}
    {events : List (α × κ)}
    (hKeys : ∀ i ∈ slots, ∀ j ∈ slots, key i = key j → i = j)
    (hEvents : events.Nodup) :
    Exact key slots events where
  unique := fun i hi j hj hSame _ => hKeys i hi j hj hSame
  once := fun _ _ _ => List.nodup_iff_count.mp hEvents _

/- Then and only then the entries are those that should be. -/
theorem entered_exact_iff
    (key : ι → κ)
    (slots : List ι)
    (events : List (α × κ)) :
    (∀ i ∈ slots, ∀ a,
        (a ∈ entered key slots events i ↔
          (a, key i) ∈ events) ∧
          (entered key slots events i).count a ≤ 1) ↔
      Exact key slots events := by
  constructor
  · intro h
    -- A named key is entered in its first slot alone, so
    -- every slot with that key is the first.
    have hFirst :
        ∀ i ∈ slots, ∀ a, (a, key i) ∈ events →
          slot key slots (key i) = some i := by
      intro i hi a hMem
      rcases mem_entered.mp ((h i hi a).1.mpr hMem) with
        ⟨k, -, hSlot⟩
      rw [key_of_slot hSlot]
      exact hSlot
    constructor
    · rintro i hi j hj hKey ⟨a, hMem⟩
      have hLeft := hFirst i hi a hMem
      rw [hKey] at hMem hLeft
      exact Option.some.inj
        (hLeft.symm.trans (hFirst j hj a hMem))
    · intro i hi a
      by_cases hMem : (a, key i) ∈ events
      · rw [← count_entered (hFirst i hi a hMem)]
        exact (h i hi a).2
      · rw [List.count_eq_zero.mpr hMem]
        exact Nat.zero_le 1
  · intro h i hi a
    by_cases hNamed : ∃ b, (b, key i) ∈ events
    · have hFound : ∃ j, slot key slots (key i) = some j :=
        exists_slot hi
      rcases hFound with ⟨j, hSlot⟩
      have hSame :=
        h.unique i hi j (mem_of_slot hSlot)
          (key_of_slot hSlot).symm hNamed
      rw [← hSame] at hSlot
      rw [mem_entered_key hSlot, count_entered hSlot]
      exact ⟨Iff.rfl, h.once i hi a⟩
    · have hNone : entered key slots events i = [] := by
        rw [List.eq_nil_iff_forall_not_mem]
        intro b hb
        rcases mem_entered.mp hb with ⟨k, hMem, hSlot⟩
        rw [← key_of_slot hSlot] at hMem
        exact hNamed ⟨b, hMem⟩
      rw [hNone]
      constructor
      · simpa using fun hMem => hNamed ⟨a, hMem⟩
      · simp

end FirstMatch
