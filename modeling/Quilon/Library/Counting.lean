import Mathlib.Data.List.Basic

/-!
# Counting the entries of a table

A table is a list whose entries are replaced by position, as the threads or the connections of a
system are.  How many of them meet a condition changes by the one entry that is replaced.

Main results:

* `countP_set_add` — the balance of a replacement;
* `pos_countP_of_getElem?` — an entry that meets the condition is counted;
* `flatMap_set_of_last` — what the entries give together, when the last one that gives is replaced.
-/

namespace Quilon

variable {α : Type*} {entries : List α} {index : Nat} {entry : α}

theorem pos_countP_of_getElem? {p : α → Bool} (h : entries[index]? = some entry)
    (hentry : p entry = true) : 0 < entries.countP p :=
  List.countP_pos_iff.mpr ⟨entry, List.mem_of_getElem? h, hentry⟩

/-- What the old entry and the new one count for is the difference. -/
theorem countP_set_add (p : α → Bool) (h : entries[index]? = some entry) (later : α) :
    (entries.set index later).countP p + (p entry).toNat = entries.countP p + (p later).toNat := by
  obtain ⟨hlt, rfl⟩ := List.getElem?_eq_some_iff.mp h
  have hpos := fun hentry => pos_countP_of_getElem? (p := p) h hentry
  rw [List.countP_set hlt]
  cases hold : p entries[index] <;> cases hnew : p later <;> simp_all

theorem countP_concat (p : α → Bool) :
    (entries ++ [entry]).countP p = entries.countP p + (p entry).toNat := by
  rw [List.countP_append, List.countP_singleton]
  cases p entry <;> rfl

theorem flatMap_set_of_eq {β : Type*} {f : α → List β} {later : α}
    (hget : entries[index]? = some entry) (hlater : f later = f entry) :
    (entries.set index later).flatMap f = entries.flatMap f := by
  induction entries generalizing index with
  | nil => cases hget
  | cons head tail ih =>
    cases index with
    | zero =>
      obtain rfl := Option.some.inj hget
      rw [List.set_cons_zero, List.flatMap_cons, List.flatMap_cons, hlater]
    | succ index => rw [List.set_cons_succ, List.flatMap_cons, List.flatMap_cons, ih hget]

/-- Where the entries behind it give nothing, and it gave nothing, a replaced entry gives at the
end. -/
theorem flatMap_set_of_last {β : Type*} {f : α → List β} {later : α}
    (hget : entries[index]? = some entry) (hentry : f entry = [])
    (hlast : ∀ (other : Nat) (entry' : α), index < other → entries[other]? = some entry' →
      f entry' = []) :
    (entries.set index later).flatMap f = entries.flatMap f ++ f later := by
  induction entries generalizing index with
  | nil => cases hget
  | cons head tail ih =>
    cases index with
    | zero =>
      obtain rfl := Option.some.inj hget
      have htail : tail.flatMap f = [] := by
        rw [List.flatMap_eq_nil_iff]
        intro entry' hmem
        obtain ⟨other, hother⟩ := List.mem_iff_getElem?.mp hmem
        exact hlast (other + 1) entry' (Nat.succ_pos other) hother
      rw [List.set_cons_zero, List.flatMap_cons, List.flatMap_cons, htail, hentry,
        List.append_nil]
      rfl
    | succ index =>
      rw [List.set_cons_succ, List.flatMap_cons, List.flatMap_cons, List.append_assoc,
        ih hget fun other entry' hlt => hlast (other + 1) entry' (Nat.succ_lt_succ hlt)]

end Quilon
