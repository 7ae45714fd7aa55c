import Mathlib.Data.List.Pairwise
import Mathlib.Data.List.Sort
import Mathlib.Order.Defs.LinearOrder

/- Stable sorting by a key, slices of sorted lists, and pages.

   `List.insertionSort` puts elements of equal key in the order they came in.
   `find?_insertionSort` reads off that the first match in a list sorted by a key
   is the least match by (key, position). A list in strictly falling order is the
   one sort of its elements (`sort_eq`), so what is sorted need not be looked at
   again. `ahead key x l` counts the elements a listing in falling order may put
   before `x`: fewer than `n` keep `x` among the first `n` (`mem_take_of_ahead`),
   and otherwise some order of the input leaves it out (`notMem_take_of_ahead`).
   `slice` is Python's `l[offset:offset + limit]`; a slice of a filtered list is that
   of the whole one exactly when nothing is missing up to its end
   (`slice_filter_eq_iff`). -/
namespace Sorting
variable {α ι : Type} [LinearOrder ι]

/-! The first match by ascending key. -/

section
variable (key : α → ι)

/-- `sorted(l, key=key)` -/
def ascending (l : List α) : List α := l.insertionSort (fun a b => key a ≤ key b)

/-- `sorted(l, key=key, reverse=True)`, which is stable too. -/
def descending (l : List α) : List α := l.insertionSort (fun a b => key b ≤ key a)

end

variable {key : α → ι}

theorem find?_orderedInsert {p : α → Bool} (x : α) {l : List α}
    (hl : l.Pairwise (fun a b => key a ≤ key b)) :
    (l.orderedInsert (fun a b => key a ≤ key b) x).find? p =
      if p x then
        match l.find? p with
        | some b => if key x ≤ key b then some x else some b
        | none => some x
      else l.find? p := by
  induction l with
  | nil => cases hx : p x <;> simp [hx]
  | cons b l ih =>
    obtain ⟨hb, hl⟩ := List.pairwise_cons.mp hl
    by_cases hle : key x ≤ key b
    · rw [List.orderedInsert_cons, if_pos hle]
      cases hx : p x with
      | false => simp [hx]
      | true =>
        -- whatever matches comes after `b`, and `x` goes before `b`
        have hall : ∀ c, (b :: l).find? p = some c → key x ≤ key c := by
          intro c hc
          rcases List.mem_cons.mp (List.mem_of_find?_eq_some hc) with rfl | hmem
          · exact hle
          · exact hle.trans (hb c hmem)
        rw [List.find?_cons_of_pos hx, if_pos rfl]
        split
        · next c hc => rw [if_pos (hall c hc)]
        · rfl
    · rw [List.orderedInsert_cons, if_neg hle]
      cases hb' : p b with
      | true => simp [hb', hle]
      | false => simp [hb', ih hl]

theorem mem_ascending {l : List α} {x : α} : x ∈ ascending key l ↔ x ∈ l :=
  List.mem_insertionSort _

theorem ascending_rises (l : List α) : (ascending key l).Pairwise (fun a b => key a ≤ key b) := by
  have : Std.Total (fun a b : α => key a ≤ key b) := ⟨fun a b => le_total (key a) (key b)⟩
  have : IsTrans α (fun a b => key a ≤ key b) := ⟨fun _ _ _ => le_trans⟩
  exact List.pairwise_insertionSort _ l

/-- With distinct keys the order is strict. -/
theorem ascending_rises_strictly {l : List α} (hn : (l.map key).Nodup) :
    (ascending key l).Pairwise (fun a b => key a < key b) := by
  have hperm : ((ascending key l).map key).Perm (l.map key) := (List.perm_insertionSort _ l).map key
  have hdistinct : (ascending key l).Pairwise (fun a b => key a ≠ key b) :=
    List.pairwise_map.mp (hperm.nodup_iff.mpr hn)
  exact (ascending_rises l).imp₂ (fun _ _ hle hne => lt_of_le_of_ne hle hne) hdistinct

theorem ascending_cons (x : α) (l : List α) :
    ascending key (x :: l) = (ascending key l).orderedInsert (fun a b => key a ≤ key b) x := rfl

/-- `a`, at position `i`, is the least match by (key, position). -/
def LeastMatch (key : α → ι) (p : α → Bool) (l : List α) (i : Nat) (a : α) : Prop :=
  l[i]? = some a ∧ ∀ (j : Nat) b, l[j]? = some b → p b = true →
    key a < key b ∨ key a = key b ∧ i ≤ j

/-- The head is least if no match has a smaller key. -/
theorem LeastMatch.head {p : α → Bool} {x : α} {l : List α}
    (h : ∀ b ∈ l, p b = true → key x ≤ key b) : LeastMatch key p (x :: l) 0 x := by
  refine ⟨rfl, ?_⟩
  intro j b hj hb
  cases j with
  | zero =>
    cases hj
    exact .inr ⟨rfl, Nat.le_refl 0⟩
  | succ j =>
    have hle : key x ≤ key b := h b (List.mem_of_getElem? hj) hb
    exact hle.lt_or_eq.imp_right fun he => ⟨he, Nat.zero_le _⟩

/-- The least match of the tail stays it if the head does not match or has a greater key. -/
theorem LeastMatch.tail {p : α → Bool} {x a : α} {l : List α} {i : Nat}
    (h : LeastMatch key p l i a) (hx : p x = true → key a < key x) :
    LeastMatch key p (x :: l) (i + 1) a := by
  refine ⟨h.1, ?_⟩
  intro j b hj hb
  cases j with
  | zero =>
    cases hj
    exact .inl (hx hb)
  | succ j => exact (h.2 j b hj hb).imp_right fun he => ⟨he.1, Nat.succ_le_succ he.2⟩

theorem LeastMatch.le {p : α → Bool} {a b : α} {l : List α} {i : Nat}
    (h : LeastMatch key p l i a) (hmem : b ∈ l) (hb : p b = true) : key a ≤ key b := by
  obtain ⟨j, hj⟩ := List.getElem?_of_mem hmem
  exact (h.2 j b hj hb).elim le_of_lt fun he => he.1.le

/-- The first match in a list sorted by `key` is the least match by (key, position). -/
theorem find?_insertionSort {p : α → Bool} {l : List α} {a : α}
    (h : (ascending key l).find? p = some a) : ∃ i, LeastMatch key p l i a := by
  induction l generalizing a with
  | nil => cases h
  | cons x l ih =>
    rw [ascending_cons, find?_orderedInsert x (ascending_rises l)] at h
    cases hx : p x with
    | false =>
      rw [hx, if_neg Bool.false_ne_true] at h
      obtain ⟨i, hleast⟩ := ih h
      exact ⟨i + 1, hleast.tail fun hpx => absurd (hx.symm.trans hpx) Bool.false_ne_true⟩
    | true =>
      rw [hx, if_pos rfl] at h
      cases hc : (ascending key l).find? p with
      | none =>
        rw [hc] at h
        cases h
        -- a match further on would have been found
        refine ⟨0, .head fun b hmem hb => absurd hb ?_⟩
        exact List.find?_eq_none.mp hc b (mem_ascending.mpr hmem)
      | some c =>
        rw [hc] at h
        obtain ⟨i, hleast⟩ := ih hc
        dsimp only at h
        by_cases hle : key x ≤ key c
        · rw [if_pos hle] at h
          cases h
          exact ⟨0, .head fun b hmem hb => hle.trans (hleast.le hmem hb)⟩
        · rw [if_neg hle] at h
          cases h
          exact ⟨i + 1, hleast.tail fun _ => not_le.mp hle⟩

/-! Lists in falling order. -/

theorem descending_perm (l : List α) : (descending key l).Perm l := List.perm_insertionSort _ l

theorem mem_descending {l : List α} {x : α} : x ∈ descending key l ↔ x ∈ l :=
  List.mem_insertionSort _

theorem descending_falls (l : List α) :
    (descending key l).Pairwise (fun a b => key b ≤ key a) := by
  have : Std.Total (fun a b : α => key b ≤ key a) := ⟨fun a b => le_total (key b) (key a)⟩
  have : IsTrans α (fun a b => key b ≤ key a) := ⟨fun _ _ _ hab hbc => le_trans hbc hab⟩
  exact List.pairwise_insertionSort _ l

/-- Elements of distinct keys, in falling order, each once. -/
abbrev Falling (key : α → ι) (l : List α) : Prop := l.Pairwise (fun a b => key b < key a)

theorem Falling.nodup {l : List α} (h : Falling key l) : l.Nodup :=
  h.imp fun hab he => absurd (he ▸ hab) (lt_irrefl _)

theorem Falling.inj {l : List α} (h : Falling key l) {a b : α} (ha : a ∈ l) (hb : b ∈ l)
    (hab : key a = key b) : a = b := by
  have hne : l.Pairwise (fun a b => key a ≠ key b) := h.imp fun hlt => hlt.ne'
  have : Std.Symm (fun a b : α => key a ≠ key b) := ⟨fun _ _ hn => hn.symm⟩
  by_contra hdiff
  exact hne.forall ha hb hdiff hab

/-- A list in strictly falling order is the sort of any list with its elements. -/
theorem sort_eq {l l' : List α} (h : Falling key l) (hn : l'.Nodup) (hmem : ∀ x, x ∈ l' ↔ x ∈ l) :
    descending key l' = l := by
  have hperm : (descending key l').Perm l :=
    (descending_perm l').trans ((List.perm_ext_iff_of_nodup hn h.nodup).mpr hmem)
  refine hperm.eq_of_pairwise ?_ (descending_falls l') (h.imp fun hab => hab.le)
  intro a b ha hb hab hba
  exact h.inj (hperm.mem_iff.mp ha) hb (le_antisymm hba hab)

theorem falling_descending {l : List α} (hn : l.Nodup)
    (hinj : ∀ a ∈ l, ∀ b ∈ l, key a = key b → a = b) : Falling key (descending key l) := by
  have hsorted : (descending key l).Nodup := (descending_perm l).nodup_iff.mpr hn
  refine ((descending_falls l).and hsorted).imp_of_mem ?_
  intro a b ha hb ⟨hle, hne⟩
  apply lt_of_le_of_ne hle
  exact fun heq => hne (hinj a (mem_descending.mp ha) b (mem_descending.mp hb) heq.symm)

/-! Who is among the first in falling order. -/

/-- How many elements other than `x` a listing in falling order may put before `x`. -/
def ahead [DecidableEq α] (key : α → ι) (x : α) (l : List α) : Nat :=
  (l.filter (fun y => y ≠ x ∧ key x ≤ key y)).length

section
variable [DecidableEq α] {l : List α} {x : α} {n : Nat}

/-- With fewer than `n` ahead of it, `x` is among the first `n` in any falling order. -/
theorem mem_take_of_ahead (hl : l.Pairwise (fun a b => key b ≤ key a)) (hn : l.Nodup) (hx : x ∈ l)
    (h : ahead key x l < n) : x ∈ l.take n := by
  obtain ⟨before, after, rfl⟩ := List.append_of_mem hx
  have hnotin : x ∉ before := by
    intro hmem
    exact (List.nodup_append.mp hn).2.2 x hmem x List.mem_cons_self rfl
  -- all that stands before `x` counts as ahead of it
  have hlen : before.length ≤ ahead key x (before ++ x :: after) := by
    have hall : before.filter (fun y => y ≠ x ∧ key x ≤ key y) = before := by
      rw [List.filter_eq_self]
      intro y hy
      have hne : y ≠ x := fun he => hnotin (he ▸ hy)
      have hle : key x ≤ key y :=
        (List.pairwise_append.mp hl).2.2 y hy x List.mem_cons_self
      simp [hne, hle]
    rw [ahead, List.filter_append, List.length_append, hall]
    omega
  rw [List.take_append]
  apply List.mem_append_right
  obtain ⟨k, hk⟩ : ∃ k, n - before.length = k + 1 := ⟨n - before.length - 1, by omega⟩
  rw [hk, List.take_succ_cons]
  exact List.mem_cons_self

/-- With `n` or more ahead of it, `x` is not among the first `n` when it comes in last. -/
theorem notMem_take_of_ahead (hn : (l ++ [x]).Nodup) (h : n ≤ ahead key x (l ++ [x])) :
    x ∉ (descending key (l ++ [x])).take n := by
  have hperm : (descending key (l ++ [x])).Perm (l ++ [x]) := descending_perm _
  have hsorted : (descending key (l ++ [x])).Nodup := hperm.nodup_iff.mpr hn
  have hx : x ∈ descending key (l ++ [x]) := mem_descending.mpr (by simp)
  obtain ⟨before, after, heq⟩ := List.append_of_mem hx
  rw [heq] at hsorted ⊢
  have hnotin : x ∉ before := by
    intro hmem
    exact (List.nodup_append.mp hsorted).2.2 x hmem x List.mem_cons_self rfl
  -- the sort is stable: what is ahead of `x` and came in before it stays before it
  have hsub : (l ++ [x]).filter (fun y => y ≠ x ∧ key x ≤ key y) ⊆ before := by
    intro y hy
    simp only [List.mem_filter, List.mem_append, List.mem_singleton, decide_eq_true_eq] at hy
    obtain ⟨hmem, hne, hle⟩ := hy
    have hpair : [y, x].Sublist (descending key (l ++ [x])) := by
      apply List.pair_sublist_insertionSort (r := fun a b => key b ≤ key a) hle
      exact (List.singleton_sublist.mpr (hmem.resolve_right hne)).append (List.Sublist.refl [x])
    rw [heq] at hpair
    obtain ⟨front, back, hfront, hsub, hback⟩ := List.sublist_append_iff.mp hpair
    cases front with
    | cons z front =>
      have hz : y = z := (List.cons.inj hfront).1
      exact hsub.subset (hz ▸ List.mem_cons_self)
    | nil =>
      -- were `y` after `x`, `x` would come a second time
      rw [List.nil_append] at hfront
      subst hfront
      have hafter : [y, x].Sublist after := by
        cases hback with
        | cons _ h => exact h
        | cons_cons _ h => exact absurd rfl hne
      have hx : x ∈ after := hafter.subset (by simp)
      exact absurd hx (List.nodup_cons.mp (List.nodup_append.mp hsorted).2.1).1
  have hlen : n ≤ before.length := by
    refine h.trans ?_
    exact (List.subperm_of_subset (hn.filter _) hsub).length_le
  intro hmem
  rw [List.take_append_of_le_length hlen] at hmem
  exact hnotin (List.mem_of_mem_take hmem)

/-- In strictly falling order the first `n` are those with fewer than `n` ahead of them. -/
theorem mem_take_iff_ahead (hl : Falling key l) :
    x ∈ l.take n ↔ x ∈ l ∧ ahead key x l < n := by
  constructor
  · intro hx
    refine ⟨List.mem_of_mem_take hx, ?_⟩
    obtain ⟨before, after, heq⟩ := List.append_of_mem hx
    have hn : before.length < n := by
      have hlen := congrArg List.length heq
      rw [List.length_take, List.length_append, List.length_cons] at hlen
      omega
    -- only what stands before `x` has a key that is not below its own
    have hsub : l.filter (fun y => y ≠ x ∧ key x ≤ key y) ⊆ before := by
      intro y hy
      simp only [List.mem_filter, decide_eq_true_eq] at hy
      obtain ⟨hmem, hne, hle⟩ := hy
      rw [← List.take_append_drop n l, heq, List.append_assoc, List.cons_append] at hmem hl
      rcases List.mem_append.mp hmem with hy | hy
      · exact hy
      · rcases List.mem_cons.mp hy with hy | hy
        · exact absurd hy hne
        · have hlt := (List.pairwise_cons.mp (List.pairwise_append.mp hl).2.1).1 y hy
          exact absurd hle (not_le.mpr hlt)
    calc ahead key x l
      _ ≤ before.length := (List.subperm_of_subset (hl.nodup.filter _) hsub).length_le
      _ < n := hn
  · intro h
    exact mem_take_of_ahead (hl.imp fun hab => hab.le) hl.nodup h.1 h.2

end

/-! Slices and pages. -/

/-- `l[offset:offset + limit]` -/
def slice (offset limit : Nat) (l : List α) : List α := (l.drop offset).take limit

/-- A slice and what comes after it. -/
theorem slice_append_drop (offset limit : Nat) (l : List α) :
    slice offset limit l ++ l.drop (offset + limit) = l.drop offset := by
  rw [slice, ← List.drop_drop, List.take_append_drop]

theorem slice_eq_nil {offset limit : Nat} {l : List α} (hlimit : 1 ≤ limit) :
    slice offset limit l = [] ↔ l.length ≤ offset := by
  rw [slice, List.take_eq_nil_iff, List.drop_eq_nil_iff]
  omega

theorem slice_eq (offset limit : Nat) (l : List α) :
    slice offset limit l = (l.take (offset + limit)).drop offset := by
  rw [List.drop_take, Nat.add_sub_cancel_left]
  rfl

/-- A slice of what is kept of a list is that of the whole list exactly when all up to the end of
    the slice is kept, or the slice starts past the end. -/
theorem slice_filter_eq_iff {l : List α} (hl : l.Nodup) (keep : α → Bool) {offset limit : Nat}
    (hlimit : 1 ≤ limit) :
    slice offset limit (l.filter keep) = slice offset limit l ↔
      (∀ x ∈ l.take (offset + limit), keep x = true) ∨ l.length ≤ offset := by
  constructor
  · intro heq
    by_contra hnot
    simp only [not_or, not_forall, not_le] at hnot
    obtain ⟨⟨x, hx, hkeep⟩, hoffset⟩ := hnot
    obtain ⟨m, hm, hxm⟩ := List.mem_take_iff_getElem.mp hx
    -- at `p` the two slices differ: something before was dropped, so what is kept has moved up
    let p := max offset m
    have hp : p < l.length ∧ p < offset + limit ∧ offset ≤ p ∧ m ≤ p := by omega
    have hget : (l.filter keep)[p]? = l[p]? := by
      have hat := congrArg (·[p - offset]?) heq
      have hlt : p - offset < limit := by omega
      have hback : offset + (p - offset) = p := by omega
      simpa only [slice, List.getElem?_take_of_lt hlt, List.getElem?_drop, hback] using hat
    have hfront : ((l.take (p + 1)).filter keep).length ≤ p := by
      have hlt : ((l.take (p + 1)).filter keep).length < (l.take (p + 1)).length :=
        List.length_filter_lt_length_iff_exists.mpr
          ⟨x, List.mem_take_iff_getElem.mpr ⟨m, by omega, hxm⟩, hkeep⟩
      rw [List.length_take] at hlt
      omega
    have hsplit : l.filter keep = (l.take (p + 1)).filter keep ++ (l.drop (p + 1)).filter keep := by
      rw [← List.filter_append, List.take_append_drop]
    rw [hsplit, List.getElem?_append_right hfront, List.getElem?_eq_getElem hp.1] at hget
    have hdrop : l[p] ∈ l.drop (p + 1) := List.mem_of_mem_filter (List.mem_of_getElem? hget)
    have htake : l[p] ∈ l.take (p + 1) := List.mem_take_iff_getElem.mpr ⟨p, by omega, rfl⟩
    rw [← List.take_append_drop (p + 1) l] at hl
    exact (List.nodup_append.mp hl).2.2 _ htake _ hdrop rfl
  · intro h
    rcases h with hkeep | hpast
    · have hsplit : l.filter keep =
          l.take (offset + limit) ++ (l.drop (offset + limit)).filter keep := by
        conv_lhs => rw [← List.take_append_drop (offset + limit) l, List.filter_append]
        rw [List.filter_eq_self.mpr hkeep]
      have htake : (l.filter keep).take (offset + limit) = l.take (offset + limit) := by
        rw [hsplit, List.take_append, List.take_take, Nat.min_self, List.length_take]
        rcases Nat.le_total (offset + limit) l.length with hle | hle
        · simp [Nat.min_eq_left hle]
        · simp [List.drop_of_length_le hle]
      rw [slice_eq, slice_eq, htake]
    · have hpast' : (l.filter keep).length ≤ offset := (List.length_filter_le keep l).trans hpast
      rw [slice, slice, List.drop_of_length_le hpast', List.drop_of_length_le hpast]

end Sorting
