import Mathlib.Data.List.Dedup
import Mathlib.Data.List.Induction
import Mathlib.Data.List.Perm.Basic
import Mathlib.Data.List.Perm.Subperm
import Mathlib.Order.Lattice

/-! First occurrences along a walk. Elements carry a key; a walk keeps an element
when its key was not met before. How the kept elements depend on the walked list:
its prefixes, a filter on the keys, and a reordering of elements that tie. -/
namespace FirstSeen

variable {α β : Type} [DecidableEq β]

/-- The elements whose key is not in `seen` and was not met before them. -/
def fresh (f : α → β) (seen : List β) : List α → List α
  | [] => []
  | x :: xs => if f x ∈ seen then fresh f seen xs else x :: fresh f (f x :: seen) xs

def distinct (f : α → β) (xs : List α) : Nat := (xs.map f).dedup.length

variable {f : α → β}

theorem fresh_congr {seen other : List β} (same : ∀ b, b ∈ seen ↔ b ∈ other) (xs : List α) :
    fresh f seen xs = fresh f other xs := by
  induction xs generalizing seen other with
  | nil => rfl
  | cons x xs ih =>
    by_cases old : f x ∈ seen
    · simp only [fresh, old, (same _).mp old, ↓reduceIte]
      exact ih same
    · have new : f x ∉ other := fun h => old ((same _).mpr h)
      simp only [fresh, old, new, ↓reduceIte, List.cons.injEq, true_and]
      exact ih fun b => by simp only [List.mem_cons, same b]

theorem fresh_append (seen : List β) (xs ys : List α) :
    fresh f seen (xs ++ ys) = fresh f seen xs ++ fresh f (seen ++ xs.map f) ys := by
  induction xs generalizing seen with
  | nil => simp [fresh]
  | cons x xs ih =>
    by_cases old : f x ∈ seen
    · simp only [List.cons_append, fresh, old, ↓reduceIte, ih]
      congr 1
      apply fresh_congr
      intro b
      simp only [List.mem_append, List.map_cons, List.mem_cons]
      constructor
      · rintro (h | h)
        · exact .inl h
        · exact .inr (.inr h)
      · rintro (h | rfl | h)
        · exact .inl h
        · exact .inl old
        · exact .inr h
    · simp only [List.cons_append, fresh, old, ↓reduceIte, ih, List.cons.injEq, true_and]
      congr 1
      apply fresh_congr
      intro b
      simp only [List.mem_append, List.map_cons, List.mem_cons]
      tauto

theorem mem_map_fresh (seen : List β) (xs : List α) (b : β) :
    b ∈ (fresh f seen xs).map f ↔ b ∈ xs.map f ∧ b ∉ seen := by
  induction xs generalizing seen with
  | nil => simp [fresh]
  | cons x xs ih =>
    by_cases old : f x ∈ seen
    · simp only [fresh, old, ↓reduceIte, ih, List.map_cons, List.mem_cons]
      constructor
      · exact fun ⟨h, out⟩ => ⟨.inr h, out⟩
      · rintro ⟨rfl | h, out⟩
        · exact absurd old out
        · exact ⟨h, out⟩
    · simp only [fresh, old, ↓reduceIte, List.map_cons, List.mem_cons, ih, not_or]
      by_cases head : b = f x
      · simp [head, old]
      · simp [head]

theorem fresh_sublist (seen : List β) (xs : List α) : (fresh f seen xs).Sublist xs := by
  induction xs generalizing seen with
  | nil => exact List.Sublist.slnil
  | cons x xs ih =>
    by_cases old : f x ∈ seen
    · simpa only [fresh, old, ↓reduceIte] using (ih seen).cons x
    · simpa only [fresh, old, ↓reduceIte] using (ih (f x :: seen)).cons_cons x

theorem nodup_map_fresh (seen : List β) (xs : List α) : ((fresh f seen xs).map f).Nodup := by
  induction xs generalizing seen with
  | nil => simp [fresh]
  | cons x xs ih =>
    by_cases old : f x ∈ seen
    · simpa only [fresh, old, ↓reduceIte] using ih seen
    · simp only [fresh, old, ↓reduceIte, List.map_cons, List.nodup_cons]
      exact ⟨fun again => ((mem_map_fresh _ _ _).mp again).2 List.mem_cons_self, ih _⟩

/-- One more element is kept exactly when its key is not among those kept so far. -/
theorem fresh_concat (xs : List α) (y : α) :
    fresh f [] (xs ++ [y]) =
      if f y ∈ (fresh f [] xs).map f then fresh f [] xs else fresh f [] xs ++ [y] := by
  have keys : f y ∈ (fresh f [] xs).map f ↔ f y ∈ xs.map f := by simp [mem_map_fresh]
  rw [fresh_append]
  by_cases old : f y ∈ xs.map f
  · rw [if_pos (keys.mpr old)]
    simp only [List.nil_append, fresh, old, ↓reduceIte, List.append_nil]
  · rw [if_neg (keys.not.mpr old)]
    simp only [List.nil_append, fresh, old, ↓reduceIte]

theorem perm_dedup (xs : List α) : ((fresh f [] xs).map f).Perm (xs.map f).dedup := by
  refine (List.perm_ext_iff_of_nodup (nodup_map_fresh [] xs) (List.nodup_dedup _)).mpr ?_
  intro b
  simp [mem_map_fresh]

theorem length_fresh (xs : List α) : (fresh f [] xs).length = distinct f xs := by
  rw [distinct, ← (perm_dedup xs).length_eq, List.length_map]

theorem distinct_perm {xs ys : List α} (perm : xs.Perm ys) : distinct f xs = distinct f ys :=
  ((perm.map f).dedup).length_eq

theorem length_le_distinct {xs kept : List α} (nodup : (kept.map f).Nodup)
    (within : ∀ b ∈ kept.map f, b ∈ xs.map f) : kept.length ≤ distinct f xs := by
  have sub : (kept.map f).Subperm (xs.map f).dedup :=
    List.subperm_of_subset nodup fun b member => List.mem_dedup.mpr (within b member)
  simpa [distinct] using sub.length_le

theorem fresh_cons_of_not_mem (seen : List β) (b : β) (xs : List α) (absent : b ∉ xs.map f) :
    fresh f (b :: seen) xs = fresh f seen xs := by
  induction xs generalizing seen with
  | nil => rfl
  | cons x xs ih =>
    simp only [List.map_cons, List.mem_cons, not_or] at absent
    have apart : f x ≠ b := Ne.symm absent.1
    by_cases old : f x ∈ seen
    · simpa only [fresh, List.mem_cons, apart, old, or_true, ↓reduceIte] using ih seen absent.2
    · simp only [fresh, List.mem_cons, apart, old, or_self, ↓reduceIte, List.cons.injEq, true_and]
      rw [← ih (f x :: seen) absent.2]
      exact fresh_congr (fun c => by simp only [List.mem_cons]; tauto) xs

/-- Keeping only some keys commutes with keeping first occurrences. -/
theorem filter_fresh (p : β → Bool) (seen : List β) (xs : List α) :
    (fresh f seen xs).filter (fun x => p (f x)) = fresh f seen (xs.filter fun x => p (f x)) := by
  induction xs generalizing seen with
  | nil => rfl
  | cons x xs ih =>
    by_cases old : f x ∈ seen <;> by_cases chosen : p (f x) = true
    · simp [fresh, old, chosen, ih]
    · simp [fresh, old, chosen, ih]
    · simp [fresh, old, chosen, ih]
    · have absent : f x ∉ (xs.filter fun x => p (f x)).map f := by
        intro member
        obtain ⟨y, inside, same⟩ := List.mem_map.mp member
        rw [List.mem_filter, same] at inside
        exact chosen inside.2
      simp [fresh, old, chosen, ih, fresh_cons_of_not_mem seen (f x) _ absent]

/-- Deleting one key from the first `w` kept elements leaves the first `w` or `w - 1`
kept elements of the walk without that key. -/
theorem filter_take_of_nodup (b : β) (kept : List α) (nodup : (kept.map f).Nodup) (w : Nat)
    (enough : w ≤ kept.length) :
    (kept.take w).filter (fun x => decide (f x ≠ b)) =
      (kept.filter fun x => decide (f x ≠ b)).take
        (if b ∈ (kept.take w).map f then w - 1 else w) := by
  induction kept generalizing w with
  | nil =>
    obtain rfl : w = 0 := by simpa using enough
    simp
  | cons x kept ih =>
    cases w with
    | zero => simp
    | succ w =>
      simp only [List.map_cons, List.nodup_cons] at nodup
      have shorter : w ≤ kept.length := by simpa using enough
      by_cases same : f x = b
      · subst same
        have absent : ∀ y ∈ kept, f y ≠ f x := fun y member eq =>
          nodup.1 (List.mem_map.mpr ⟨y, member, eq⟩)
        have all : kept.filter (fun y => decide (f y ≠ f x)) = kept :=
          List.filter_eq_self.mpr fun y member => by simpa using absent y member
        have front : (kept.take w).filter (fun y => decide (f y ≠ f x)) = kept.take w :=
          List.filter_eq_self.mpr fun y member => by
            simpa using absent y (List.mem_of_mem_take member)
        simp only [List.take_succ_cons, List.map_cons, List.mem_cons, true_or, ↓reduceIte,
          Nat.add_sub_cancel]
        rw [List.filter_cons_of_neg (by simp), List.filter_cons_of_neg (by simp), front, all]
      · have rest := ih nodup.2 w shorter
        rw [List.take_succ_cons, List.filter_cons_of_pos (by simpa using same),
          List.filter_cons_of_pos (by simpa using same), rest, List.map_cons]
        by_cases later : b ∈ (kept.take w).map f
        · have positive : 0 < w := by
            rcases w with _ | w
            · simp at later
            · exact Nat.succ_pos w
          obtain ⟨w, rfl⟩ : ∃ k, w = k + 1 := ⟨w - 1, by omega⟩
          rw [if_pos later, if_pos (List.mem_cons_of_mem _ later)]
          rfl
        · rw [if_neg later, if_neg (by simp only [List.mem_cons, not_or]; exact ⟨Ne.symm same, later⟩)]
          rfl

/-- The positions below `n` whose value no earlier position has. -/
def newPositions {γ : Type} [DecidableEq γ] (value : Nat → γ) (n : Nat) : List Nat :=
  (List.range n).filter fun k => decide (∀ m < k, value m ≠ value k)

theorem newPositions_succ {γ : Type} [DecidableEq γ] (value : Nat → γ) (n : Nat) :
    newPositions value (n + 1) = newPositions value n ++
      if ∀ m < n, value m ≠ value n then [n] else [] := by
  rw [newPositions, newPositions, List.range_succ, List.filter_append]
  split <;> simp_all

theorem newPositions_congr {γ : Type} [DecidableEq γ] {value other : Nat → γ} {n : Nat}
    (same : ∀ k < n, value k = other k) : newPositions value n = newPositions other n := by
  refine List.filter_congr fun k member => ?_
  have below := List.mem_range.mp member
  refine decide_eq_decide.mpr (forall₂_congr fun m before => ?_)
  rw [same m (before.trans below), same k below]

theorem lt_of_mem_newPositions {γ : Type} [DecidableEq γ] {value : Nat → γ} {n k : Nat}
    (member : k ∈ newPositions value n) : k < n := List.mem_range.mp (List.mem_filter.mp member).1

theorem map_fresh_positions (xs : List α) :
    (fresh f [] xs).map some =
      (newPositions (fun k => (xs[k]?).map f) xs.length).map fun k => xs[k]? := by
  induction xs using List.reverseRecOn with
  | nil => rfl
  | append_singleton xs y ih =>
    have front (k : Nat) (below : k < xs.length) : (xs ++ [y])[k]? = xs[k]? :=
      List.getElem?_append_left below
    have last : (xs ++ [y])[xs.length]? = some y := List.getElem?_concat_length
    have before : newPositions (fun k => ((xs ++ [y])[k]?).map f) xs.length =
        newPositions (fun k => (xs[k]?).map f) xs.length :=
      newPositions_congr fun k below => congrArg (Option.map f) (front k below)
    have elements : (newPositions (fun k => (xs[k]?).map f) xs.length).map
          (fun k => (xs ++ [y])[k]?) =
        (newPositions (fun k => (xs[k]?).map f) xs.length).map fun k => xs[k]? :=
      List.map_congr_left fun k member => front k (lt_of_mem_newPositions member)
    have new : (∀ m < xs.length, ((xs ++ [y])[m]?).map f ≠ ((xs ++ [y])[xs.length]?).map f) ↔
        f y ∉ (fresh f [] xs).map f := by
      have keys : f y ∈ (fresh f [] xs).map f ↔ f y ∈ xs.map f := by simp [mem_map_fresh]
      rw [keys, List.mem_iff_getElem?]
      simp only [List.getElem?_map, last, Option.map_some, not_exists]
      constructor
      · intro absent m here
        have below : m < xs.length := by
          by_contra beyond
          simp [List.getElem?_eq_none (Nat.le_of_not_lt beyond)] at here
        exact absent m below (by rw [front m below, here])
      · intro absent m below here
        exact absent m (by rw [← here, front m below])
    rw [fresh_concat, List.length_append, List.length_singleton, newPositions_succ, before,
      List.map_append, elements, ← ih]
    by_cases old : f y ∈ (fresh f [] xs).map f
    · rw [if_pos old, if_neg (new.not.mpr (not_not.mpr old)), List.map_nil, List.append_nil]
    · rw [if_neg old, if_pos (new.mpr old), List.map_append, List.map_singleton,
        List.map_singleton, last]

section Order

variable {κ : Type} [LinearOrder κ] {rank : α → κ}

/-- Some element with key `b` comes strictly before every element with key `c`. -/
def Leads (f : α → β) (rank : α → κ) (xs : List α) (b c : β) : Prop :=
  ∃ x ∈ xs, f x = b ∧ ∀ y ∈ xs, f y = c → rank x < rank y

/-- Where two elements tie, one of their keys has already been met strictly before. -/
def TiesHidden (f : α → β) (rank : α → κ) (xs : List α) : Prop :=
  ∀ x ∈ xs, ∀ y ∈ xs, rank x = rank y → f x ≠ f y →
    ∃ z ∈ xs, rank z < rank x ∧ (f z = f x ∨ f z = f y)

omit [DecidableEq β] in
theorem Leads.perm {xs ys : List α} (perm : xs.Perm ys) {b c : β} (leads : Leads f rank xs b c) :
    Leads f rank ys b c := by
  obtain ⟨x, member, same, first⟩ := leads
  exact ⟨x, perm.mem_iff.mp member, same, fun y inside => first y (perm.mem_iff.mpr inside)⟩

omit [DecidableEq β] in
theorem TiesHidden.perm {xs ys : List α} (perm : xs.Perm ys) (hidden : TiesHidden f rank xs) :
    TiesHidden f rank ys := by
  intro x hx y hy tie apart
  obtain ⟨z, hz, before, key⟩ :=
    hidden x (perm.mem_iff.mpr hx) y (perm.mem_iff.mpr hy) tie apart
  exact ⟨z, perm.mem_iff.mp hz, before, key⟩

omit [DecidableEq β] in
theorem Leads.asymm {xs : List α} {b c : β} (bc : Leads f rank xs b c) : ¬ Leads f rank xs c b := by
  rintro ⟨y, hy, ky, first⟩
  obtain ⟨x, hx, kx, earlier⟩ := bc
  exact lt_asymm (earlier y hy ky) (first x hx kx)

theorem rank_le_of_fresh {xs : List α} (sorted : xs.Pairwise fun a b => rank a ≤ rank b)
    {x y : α} (kept : x ∈ fresh f [] xs) (member : y ∈ xs) (same : f y = f x) :
    rank x ≤ rank y := by
  obtain ⟨before, after, rfl⟩ := List.append_of_mem member
  rw [List.pairwise_append, List.pairwise_cons] at sorted
  rw [fresh_append, List.mem_append] at kept
  rcases kept with early | late
  · exact sorted.2.2 x ((fresh_sublist _ _).subset early) y List.mem_cons_self
  · by_cases old : f y ∈ [] ++ before.map f
    · -- the key was met before `y`, so `x` is not among the later ones
      have out := ((mem_map_fresh _ _ (f x)).mp (List.mem_map_of_mem late)).2
      exact absurd (same ▸ old) out
    · simp only [fresh, old, ↓reduceIte, List.mem_cons] at late
      rcases late with rfl | later
      · exact le_refl _
      · have out := ((mem_map_fresh _ _ (f x)).mp (List.mem_map_of_mem later)).2
        exact absurd (same ▸ List.mem_cons_self) out

theorem pairwise_leads {xs : List α} (sorted : xs.Pairwise fun a b => rank a ≤ rank b)
    (hidden : TiesHidden f rank xs) :
    ((fresh f [] xs).map f).Pairwise (Leads f rank xs) := by
  have order : (fresh f [] xs).Pairwise fun a b => rank a ≤ rank b ∧ f a ≠ f b :=
    ((sorted.sublist (fresh_sublist _ _)).and
      (List.pairwise_map.mp (nodup_map_fresh (f := f) [] xs)))
  rw [List.pairwise_map]
  refine order.imp_of_mem ?_
  rintro x y hx hy ⟨le, apart⟩
  have mem (z) (hz : z ∈ fresh f [] xs) : z ∈ xs := (fresh_sublist _ _).subset hz
  refine ⟨x, mem x hx, rfl, fun z hz key => ?_⟩
  have least := rank_le_of_fresh sorted hy hz key
  refine lt_of_le_of_ne (le.trans least) fun tie => ?_
  obtain ⟨w, hw, before, shown⟩ := hidden x (mem x hx) z hz tie (key ▸ apart)
  rcases shown with first | second
  · exact absurd (rank_le_of_fresh sorted hx hw first) (not_le.mpr before)
  · exact absurd (le.trans (rank_le_of_fresh sorted hy hw (second.trans key))) (not_le.mpr before)

/-- Two sorted arrangements of the same elements show the same keys in the same
order, provided every tie between different keys is hidden. -/
theorem map_fresh_eq_of_perm {xs ys : List α} (perm : xs.Perm ys)
    (sortedX : xs.Pairwise fun a b => rank a ≤ rank b)
    (sortedY : ys.Pairwise fun a b => rank a ≤ rank b) (hidden : TiesHidden f rank xs) :
    (fresh f [] xs).map f = (fresh f [] ys).map f := by
  have keys : ((fresh f [] xs).map f).Perm ((fresh f [] ys).map f) :=
    (perm_dedup xs).trans ((perm.map f).dedup.trans (perm_dedup ys).symm)
  have leadsY : ((fresh f [] ys).map f).Pairwise (Leads f rank xs) :=
    (pairwise_leads sortedY (hidden.perm perm)).imp fun leads => leads.perm perm.symm
  refine keys.eq_of_pairwise ?_ (pairwise_leads sortedX hidden) leadsY
  intro b c _ _ bc cb
  exact absurd cb bc.asymm

end Order

end FirstSeen
