import Quilon.Corelib.Equiv.Plain
import Quilon.Corelib.Url
import Quilon.Runtime.Equiv.Collections

/-!
# What a query is parsed to

`Params.parse` of a query keeps, for every name, the values of the pairs with that name, in their
order (`parse_eq`).  A pair is cut at its first `=`.
-/

namespace Quilon.Http

open Text Utf8 Collections

variable {User : Type} {users : UserKeys User} {finish : UInt8 → Written → UInt64}

theorem mapGet_eq (header : Collections.Header users finish (List QnSlice)) (key : Key User) :
    mapGet header key = header.toFinmap.lookup (keyOf users finish key) :=
  HashTable.get?_eq_lookup _ _

/-- Adding a value appends it under its name and leaves the others. -/
theorem all_add (order : EntryOrder User) (debug : Bool) (values : Values users finish)
    (name value : QnSlice) :
    ∃ values', values.add order debug name value = some values' ∧ ∀ other : QnSlice,
      values'.all other = values.all other ++
        if other.content = name.content then [value] else [] := by
  obtain ⟨header, hset⟩ : ∃ header,
      mapSet debug order values.entries (.text name.content) (values.all name ++ [value]) =
        some header := ⟨_, insertKey_eq _ _ _ _ _⟩
  have hmap := toFinmap_insertKey hset
  refine ⟨⟨header⟩, by unfold Values.add; rw [hset]; rfl, fun other => ?_⟩
  by_cases hname : other.content = name.content
  · have hfound : mapGet header (.text name.content) = some (values.all name ++ [value]) := by
      rw [mapGet_eq, hmap, Finmap.lookup_insert]
    have hsame : values.all other = values.all name := by
      unfold Values.all
      rw [hname]
    rw [if_pos hname, hsame, Values.all, hname, hfound]
  · have hkey : keyOf users finish (.text other.content) ≠
        keyOf users finish (.text name.content) := fun h => hname (keyOf_eq_iff.mp h)
    have hfound : mapGet header (.text other.content) =
        mapGet values.entries (.text other.content) := by
      rw [mapGet_eq, mapGet_eq, hmap, Finmap.lookup_insert_of_ne _ hkey]
    rw [if_neg hname, List.append_nil, Values.all, Values.all, hfound]

/-- A pair of a query: what stands before the first `=`, and what stands behind it. -/
def pairOf (piece : List Char) : List Char × List Char :=
  (piece.takeWhile (· != '='), (piece.dropWhile (· != '=')).tail)

/-- The pairs of a query, in their order. -/
def pairsOf (query : List Char) : List (List Char × List Char) :=
  ((query.splitOn '&').filter (· ≠ [])).map pairOf

/-- The values the pairs have for a name. -/
def valuesOf (pairs : List (List Char × List Char)) (name : QnSlice) : List (List UInt8) :=
  (pairs.filter fun pair => encode pair.1 = name.content).map fun pair => encode pair.2

variable {unicode : Unicode}

theorem pairOf_append_cons {front back : List Char} (h : '=' ∉ front) :
    pairOf (front ++ '=' :: back) = (front, back) := by
  have hall : ∀ c ∈ front, (c != '=') = true := by
    intro c hc
    rw [bne_iff_ne]
    rintro rfl
    exact h hc
  unfold pairOf
  rw [List.takeWhile_append_of_pos hall, List.dropWhile_append_of_pos hall]
  simp

theorem pairOf_of_notMem {piece : List Char} (h : '=' ∉ piece) : pairOf piece = (piece, []) := by
  have hall : ∀ c ∈ piece, (c != '=') = true := by
    intro c hc
    rw [bne_iff_ne]
    rintro rfl
    exact h hc
  have htake : piece.takeWhile (· != '=') = piece := List.takeWhile_eq_self_iff.mpr hall
  have hdrop : piece.dropWhile (· != '=') = [] := List.dropWhile_eq_nil_iff.mpr hall
  unfold pairOf
  rw [htake, hdrop]
  rfl

theorem equalsSign : "=".toList = ['='] := rfl

/-- One pair is added as what it says. -/
theorem all_addPair (order : EntryOrder User) (debug : Bool) (params : Params users finish)
    {pair : QnSlice} {piece : List Char} (h : Holds unicode pair piece) :
    ∃ params', Params.addPair order debug unicode params pair = some params' ∧
      ∀ name : QnSlice, (params'.all name).map (·.content) =
        (params.all name).map (·.content) ++ valuesOf [pairOf piece] name := by
  have hadd : ∀ name value : QnSlice, name.content = encode (pairOf piece).1 →
      value.content = encode (pairOf piece).2 →
      ∃ params', params.add order debug name value = some params' ∧
        ∀ other : QnSlice, (params'.all other).map (·.content) =
          (params.all other).map (·.content) ++ valuesOf [pairOf piece] other := by
    intro name value hname hvalue
    obtain ⟨values, hvalues, hall⟩ := all_add order debug params.values name value
    refine ⟨⟨values⟩, by unfold Params.add; rw [hvalues]; rfl, fun other => ?_⟩
    show (values.all other).map _ = _
    rw [hall other, List.map_append]
    congr 1
    unfold valuesOf
    by_cases hother : other.content = name.content
    · rw [if_pos hother, List.filter_cons_of_pos (by rw [hother, hname]; simp)]
      simp [hvalue]
    · have hne : ¬ encode (pairOf piece).1 = other.content := fun heq =>
        hother (heq.symm.trans hname.symm)
      rw [if_neg hother, List.filter_cons_of_neg (by simp [hne])]
      rfl
  unfold Params.addPair
  rw [h.indexOf_eq, equalsSign, strFind, if_neg (List.cons_ne_nil _ _), firstIndexOf_singleton]
  by_cases hmem : '=' ∈ piece
  · obtain ⟨front, back, rfl, hfront⟩ := List.eq_append_cons_of_mem hmem
    have hindex : (front ++ '=' :: back).idxOf '=' = front.length := by
      rw [List.idxOf_append_of_notMem hfront, List.idxOf_cons_self, Nat.add_zero]
    have hlength : (front ++ '=' :: back).length = front.length + 1 + back.length := by
      rw [List.length_append, List.length_cons]
      omega
    obtain ⟨name, hname, hnameHolds⟩ := h.slice_eq (Nat.zero_le front.length) (by omega)
    obtain ⟨value, hvalue, hvalueHolds⟩ := h.slice_eq
      (show front.length + 1 ≤ (front ++ '=' :: back).length by omega) (Nat.le_refl _)
    rw [List.take_left, List.drop_zero] at hnameHolds
    rw [List.take_length, ← List.drop_drop, List.drop_left] at hvalueHolds
    rw [if_pos hmem, hindex]
    simp only [Option.map_some, Option.bind_eq_bind, Option.bind_some]
    rw [show ((0 : Int)) = ((0 : Nat) : Int) from rfl, hname, h.length_eq,
      show ((front.length : Int) + 1) = ((front.length + 1 : Nat) : Int) by omega, hvalue]
    simp only [Option.bind_some]
    apply hadd
    · rw [pairOf_append_cons hfront, hnameHolds.content]
    · rw [pairOf_append_cons hfront, hvalueHolds.content]
      rfl
  · rw [if_neg hmem]
    apply hadd
    · rw [pairOf_of_notMem hmem, h.content]
    · rw [pairOf_of_notMem hmem]
      rfl

/-- The pairs are added one after another. -/
theorem all_addPairs (order : EntryOrder User) (debug : Bool) {pairs : List QnSlice}
    {pieces : List (List Char)} (h : List.Forall₂ (Holds unicode) pairs pieces)
    (params : Params users finish) :
    ∃ params', pairs.foldlM (Params.addPair order debug unicode) params = some params' ∧
      ∀ name : QnSlice, (params'.all name).map (·.content) =
        (params.all name).map (·.content) ++ valuesOf (pieces.map pairOf) name := by
  induction h generalizing params with
  | nil => exact ⟨params, rfl, fun name => (List.append_nil _).symm⟩
  | @cons pair piece pairs pieces hpair _ ih =>
    obtain ⟨params₁, hfirst, hall₁⟩ := all_addPair order debug params hpair
    obtain ⟨params₂, hrest, hall₂⟩ := ih params₁
    refine ⟨params₂, ?_, fun name => ?_⟩
    · rw [List.foldlM_cons, hfirst]
      exact hrest
    · rw [hall₂, hall₁, List.append_assoc]
      congr 1
      unfold valuesOf
      rw [← List.map_append, ← List.filter_append, List.map_cons, List.singleton_append]

theorem ampersand : "&".toList = ['&'] := rfl

/-- **The parameters of a query are its pairs**, name by name in their order. -/
theorem parse_eq (order : EntryOrder User) (debug : Bool) {text : QnSlice} {query : List Char}
    (h : Holds unicode text query) :
    ∃ params : Params users finish, Params.parse order debug unicode text = some params ∧
      ∀ name : QnSlice, (params.all name).map (·.content) = valuesOf (pairsOf query) name := by
  have hempty := holds_literal unicode (show ∀ c ∈ "".toList, IsPlain c from nofun)
  have hkept : Relator.LiftFun (Holds unicode) (· ↔ ·)
      (fun pair => (!pair.equals (literal unicode "")) = true)
      (fun piece => decide (piece ≠ []) = true) := by
    intro pair piece hpair
    dsimp only
    rw [Bool.not_eq_true', ← Bool.not_eq_true, hpair.equals_iff hempty, decide_eq_true_iff]
    exact Iff.rfl
  have hpieces := List.rel_filter hkept (h.split ampersand)
  obtain ⟨params, hparse, hall⟩ := all_addPairs order debug hpieces
    (Params.empty order : Params users finish)
  refine ⟨params, hparse, fun name => ?_⟩
  rw [hall name]
  rfl

end Quilon.Http
