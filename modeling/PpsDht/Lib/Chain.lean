import Mathlib.Order.Basic
import Mathlib.Data.List.Basic

/-! Association chains searched by an order. A search for `k` stops at the first
entry whose key lies above `k`, and an insertion that finds such an entry overwrites
it. The chain acts as a map on the keys that nothing stored lies strictly above. -/
namespace Chain

structure Entry (K V : Type) where
  key : K
  value : V
  deriving DecidableEq

variable {K V : Type} [PartialOrder K] [DecidableLE K]

def lookup (k : K) : List (Entry K V) → Option V
  | [] => none
  | e :: rest => if k ≤ e.key then some e.value else lookup k rest

/-- Overwrites the first entry above `k`; none when no entry is. -/
def update (k : K) (v : V) : List (Entry K V) → Option (List (Entry K V))
  | [] => none
  | e :: rest =>
    if k ≤ e.key then some ({ e with value := v } :: rest) else (update k v rest).map (e :: ·)

def put (k : K) (v : V) (chain : List (Entry K V)) : List (Entry K V) :=
  (update k v chain).getD (⟨k, v⟩ :: chain)

/-- No stored key lies strictly above `k`. -/
def Unshadowed (k : K) (chain : List (Entry K V)) : Prop :=
  ∀ e ∈ chain, k ≤ e.key → e.key = k

/-- No key lies below the key of an entry further down, itself included. -/
def Ordered (chain : List (Entry K V)) : Prop :=
  chain.Pairwise fun first later => ¬ first.key ≤ later.key

theorem update_eq_none_iff (k : K) (v : V) (chain : List (Entry K V)) :
    update k v chain = none ↔ ∀ e ∈ chain, ¬ k ≤ e.key := by
  induction chain with
  | nil => simp [update]
  | cons e rest ih => by_cases above : k ≤ e.key <;> simp [update, above, ih]

theorem put_of_miss (k : K) (v : V) (chain : List (Entry K V))
    (miss : ∀ e ∈ chain, ¬ k ≤ e.key) : put k v chain = ⟨k, v⟩ :: chain := by
  rw [put, (update_eq_none_iff k v chain).mpr miss, Option.getD_none]

theorem put_of_update {k : K} {v : V} {chain updated : List (Entry K V)}
    (hit : update k v chain = some updated) : put k v chain = updated := by
  rw [put, hit, Option.getD_some]

theorem put_cons_hit (k : K) (v : V) (e : Entry K V) (rest : List (Entry K V))
    (above : k ≤ e.key) : put k v (e :: rest) = { e with value := v } :: rest := by
  simp [put, update, above]

theorem update_keys (k : K) (v : V) (chain updated : List (Entry K V))
    (hit : update k v chain = some updated) :
    updated.map Entry.key = chain.map Entry.key := by
  induction chain generalizing updated with
  | nil => simp [update] at hit
  | cons e rest ih =>
    by_cases above : k ≤ e.key
    · simp only [update, above, ↓reduceIte, Option.some.injEq] at hit
      subst hit
      simp
    · simp only [update, above, ↓reduceIte, Option.map_eq_some_iff] at hit
      obtain ⟨tail, found, rfl⟩ := hit
      simp [ih tail found]

theorem put_keys (k : K) (v : V) (chain : List (Entry K V)) :
    (put k v chain).map Entry.key = chain.map Entry.key ∨
      (∀ e ∈ chain, ¬ k ≤ e.key) ∧ (put k v chain).map Entry.key = k :: chain.map Entry.key := by
  cases hit : update k v chain with
  | none =>
    have miss := (update_eq_none_iff k v chain).mp hit
    exact .inr ⟨miss, by rw [put_of_miss k v chain miss, List.map_cons]⟩
  | some updated =>
    rw [put_of_update hit]
    exact .inl (update_keys k v chain updated hit)

theorem mem_keys_put (k k' : K) (v : V) (chain : List (Entry K V))
    (member : k' ∈ (put k v chain).map Entry.key) :
    k' = k ∨ k' ∈ chain.map Entry.key := by
  rcases put_keys k v chain with same | ⟨_, fresh⟩
  · exact .inr (same ▸ member)
  · rw [fresh] at member
    exact List.mem_cons.mp member

/-- A written value is read back at once, whatever the chain holds. -/
theorem lookup_put_self (k : K) (v : V) (chain : List (Entry K V)) :
    lookup k (put k v chain) = some v := by
  have hit (updated) (found : update k v chain = some updated) : lookup k updated = some v := by
    induction chain generalizing updated with
    | nil => simp [update] at found
    | cons e rest ih =>
      by_cases above : k ≤ e.key
      · simp only [update, above, ↓reduceIte, Option.some.injEq] at found
        subst found
        simp [lookup, above]
      · simp only [update, above, ↓reduceIte, Option.map_eq_some_iff] at found
        obtain ⟨tail, inner, rfl⟩ := found
        simp [lookup, above, ih tail inner]
  cases found : update k v chain with
  | none =>
    rw [put_of_miss k v chain ((update_eq_none_iff k v chain).mp found)]
    simp [lookup]
  | some updated => rw [put_of_update found]; exact hit updated found

theorem lookup_eq_some {k : K} {v : V} {chain : List (Entry K V)} (found : lookup k chain = some v) :
    ∃ e ∈ chain, k ≤ e.key ∧ e.value = v := by
  induction chain with
  | nil => simp [lookup] at found
  | cons e rest ih =>
    by_cases above : k ≤ e.key
    · simp only [lookup, above, ↓reduceIte, Option.some.injEq] at found
      exact ⟨e, List.mem_cons_self, above, found⟩
    · simp only [lookup, above, ↓reduceIte] at found
      obtain ⟨later, member, rest⟩ := ih found
      exact ⟨later, List.mem_cons_of_mem _ member, rest⟩

theorem lookup_eq_none_iff {k : K} {chain : List (Entry K V)} :
    lookup k chain = none ↔ ∀ k' ∈ chain.map Entry.key, ¬ k ≤ k' := by
  induction chain with
  | nil => simp [lookup]
  | cons e rest ih => by_cases above : k ≤ e.key <;> simp_all [lookup]

theorem lookup_put_ne_none {k : K} {chain : List (Entry K V)} (found : lookup k chain ≠ none)
    (k' : K) (v : V) : lookup k (put k' v chain) ≠ none := by
  refine mt (fun none => lookup_eq_none_iff.mpr fun key member => ?_) found
  refine lookup_eq_none_iff.mp none key ?_
  rcases put_keys k' v chain with same | ⟨_, fresh⟩
  · rwa [same]
  · exact fresh ▸ List.mem_cons_of_mem _ member

theorem mem_update {k : K} {v : V} {e : Entry K V} {chain updated : List (Entry K V)}
    (hit : update k v chain = some updated) (member : e ∈ updated) :
    e ∈ chain ∨ e.value = v ∧ k ≤ e.key := by
  induction chain generalizing updated with
  | nil => simp [update] at hit
  | cons first rest ih =>
    by_cases above : k ≤ first.key
    · simp only [update, above, ↓reduceIte, Option.some.injEq] at hit
      subst hit
      rcases List.mem_cons.mp member with rfl | later
      · exact .inr ⟨rfl, above⟩
      · exact .inl (List.mem_cons_of_mem _ later)
    · simp only [update, above, ↓reduceIte, Option.map_eq_some_iff] at hit
      obtain ⟨tail, found, rfl⟩ := hit
      rcases List.mem_cons.mp member with rfl | later
      · exact .inl List.mem_cons_self
      · exact (ih found later).imp_left (List.mem_cons_of_mem _)

theorem mem_put {k : K} {v : V} {e : Entry K V} {chain : List (Entry K V)}
    (member : e ∈ put k v chain) : e ∈ chain ∨ e.value = v ∧ k ≤ e.key := by
  cases hit : update k v chain with
  | none =>
    rw [put_of_miss k v chain ((update_eq_none_iff k v chain).mp hit)] at member
    rcases List.mem_cons.mp member with rfl | old
    · exact .inr ⟨rfl, le_refl _⟩
    · exact .inl old
  | some updated => exact mem_update hit (put_of_update hit ▸ member)

/-- Whether an update overwrites or inserts, the order of the keys is kept. -/
theorem Ordered.put {chain : List (Entry K V)} (ordered : Ordered chain) (k : K) (v : V) :
    Ordered (put k v chain) := by
  have onKeys (c : List (Entry K V)) :
      Ordered c ↔ (c.map Entry.key).Pairwise (fun first later => ¬ first ≤ later) := by
    rw [List.pairwise_map]; rfl
  rw [onKeys] at ordered ⊢
  rcases put_keys k v chain with same | ⟨miss, fresh⟩
  · rwa [same]
  · rw [fresh, List.pairwise_cons]
    refine ⟨fun later member => ?_, ordered⟩
    obtain ⟨e, inside, rfl⟩ := List.mem_map.mp member
    exact miss e inside

def remove (k : K) (chain : List (Entry K V)) : List (Entry K V) :=
  chain.eraseP fun e => decide (k ≤ e.key)

theorem remove_cons_hit {k : K} {e : Entry K V} (rest : List (Entry K V)) (above : k ≤ e.key) :
    remove k (e :: rest) = rest := List.eraseP_cons_of_pos (by simpa using above)

theorem remove_cons_miss {k : K} {e : Entry K V} (rest : List (Entry K V)) (other : ¬ k ≤ e.key) :
    remove k (e :: rest) = e :: remove k rest := List.eraseP_cons_of_neg (by simpa using other)

theorem Ordered.remove {chain : List (Entry K V)} (ordered : Ordered chain) (k : K) :
    Ordered (remove k chain) := List.Pairwise.eraseP _ ordered

theorem mem_of_mem_remove {k : K} {e : Entry K V} {chain : List (Entry K V)}
    (member : e ∈ remove k chain) : e ∈ chain := List.mem_of_mem_eraseP member

omit [DecidableLE K] in
theorem Ordered.nodup_keys {chain : List (Entry K V)} (ordered : Ordered chain) :
    (chain.map Entry.key).Nodup := by
  rw [List.nodup_iff_pairwise_ne, List.pairwise_map]
  exact ordered.imp fun apart same => apart same.le

section Binding

variable [DecidableEq K]

/-- The value of the first entry with exactly this key: what a map would answer. -/
def binding (k : K) : List (Entry K V) → Option V
  | [] => none
  | e :: rest => if e.key = k then some e.value else binding k rest

theorem lookup_eq_binding {k : K} {chain : List (Entry K V)} (clear : Unshadowed k chain) :
    lookup k chain = binding k chain := by
  induction chain with
  | nil => rfl
  | cons e rest ih =>
    have tail : Unshadowed k rest := fun x member => clear x (List.mem_cons_of_mem _ member)
    by_cases above : k ≤ e.key
    · simp [lookup, binding, clear e List.mem_cons_self above]
    · have other : e.key ≠ k := fun same => above (same ▸ le_refl _)
      simp [lookup, binding, above, other, ih tail]

/-- What is found is bound to some key. -/
theorem binding_of_lookup {k : K} {chain : List (Entry K V)} {v : V}
    (found : lookup k chain = some v) : ∃ e ∈ chain, k ≤ e.key ∧ binding e.key chain = some v := by
  induction chain with
  | nil => simp [lookup] at found
  | cons e rest ih =>
    by_cases above : k ≤ e.key
    · rw [lookup, if_pos above] at found
      exact ⟨e, List.mem_cons_self, above, by rw [binding, if_pos rfl, found]⟩
    · rw [lookup, if_neg above] at found
      obtain ⟨e', inside, above', bound⟩ := ih found
      have other : e.key ≠ e'.key := fun same => above (same ▸ above')
      exact ⟨e', List.mem_cons_of_mem _ inside, above', by rw [binding, if_neg other, bound]⟩

omit [DecidableLE K] in
/-- An ordered chain holds an entry exactly when it binds its key to its value. -/
theorem Ordered.mem_iff_binding {chain : List (Entry K V)} (ordered : Ordered chain) (k : K)
    (v : V) : ⟨k, v⟩ ∈ chain ↔ binding k chain = some v := by
  induction chain with
  | nil => simp [binding]
  | cons e rest ih =>
    obtain ⟨first, ordered⟩ := List.pairwise_cons.mp ordered
    rw [List.mem_cons, binding, ih ordered]
    by_cases same : e.key = k
    · have miss : binding k rest ≠ some v := fun found =>
        first _ ((ih ordered).mpr found) same.le
      rw [if_pos same, or_iff_left miss, Option.some.injEq]
      obtain ⟨key, value⟩ := e
      obtain rfl : key = k := same
      simp [eq_comm]
    · have other : (⟨k, v⟩ : Entry K V) ≠ e := fun whole => same (by rw [← whole])
      rw [if_neg same, or_iff_right other]

/-- On an unshadowed key a `put` changes this binding and no other. -/
theorem binding_put {k : K} {chain : List (Entry K V)} (clear : Unshadowed k chain)
    (v : V) (k' : K) :
    binding k' (put k v chain) = if k' = k then some v else binding k' chain := by
  induction chain with
  | nil => simp [put, update, binding, eq_comm]
  | cons e rest ih =>
    have tail : Unshadowed k rest := fun x member => clear x (List.mem_cons_of_mem _ member)
    by_cases above : k ≤ e.key
    · have same := clear e List.mem_cons_self above
      rw [put_cons_hit k v e rest above]
      by_cases wanted : k' = k
      · simp [binding, same, wanted]
      · simp [binding, same, wanted, Ne.symm wanted]
    · have other : e.key ≠ k := fun same => above (same ▸ le_refl _)
      cases found : update k v rest with
      | none =>
        have miss : ∀ x ∈ e :: rest, ¬ k ≤ x.key := by
          have inner := (update_eq_none_iff k v rest).mp found
          simpa [above] using inner
        rw [put_of_miss k v _ miss]
        by_cases wanted : k' = k
        · simp [binding, wanted]
        · simp [binding, wanted, Ne.symm wanted]
      | some updated =>
        have whole : update k v (e :: rest) = some (e :: updated) := by simp [update, above, found]
        have step := ih tail
        rw [put_of_update found] at step
        rw [put_of_update whole]
        by_cases wanted : k' = k
        · subst wanted
          simpa [binding, other] using step
        · by_cases here : e.key = k' <;> simp_all [binding]

/-- Removing a key is deleting its binding exactly when nothing lies above the key. -/
theorem remove_eq_filter_iff {chain : List (Entry K V)} (ordered : Ordered chain) (k : K) :
    remove k chain = chain.filter (fun e => decide (e.key ≠ k)) ↔ Unshadowed k chain := by
  induction chain with
  | nil => simp [remove, Unshadowed]
  | cons e rest ih =>
    obtain ⟨first, ordered⟩ := List.pairwise_cons.mp ordered
    by_cases above : k ≤ e.key
    · rw [remove_cons_hit rest above]
      by_cases same : e.key = k
      · have miss : ∀ x ∈ rest, ¬ k ≤ x.key := same ▸ first
        have clear : Unshadowed k (e :: rest) := by
          intro x member higher
          rcases List.mem_cons.mp member with rfl | later
          · exact same
          · exact absurd higher (miss x later)
        have whole : rest.filter (fun e => decide (e.key ≠ k)) = rest := by
          refine List.filter_eq_self.mpr fun x member => ?_
          simpa using fun equal : x.key = k => miss x member equal.ge
        rw [List.filter_cons_of_neg (by simpa using same), whole]
        exact iff_of_true rfl clear
      · have shadowed : ¬ Unshadowed k (e :: rest) := fun clear =>
          same (clear e List.mem_cons_self above)
        refine iff_of_false (fun equal => ?_) shadowed
        -- the entry removed had another key, so a deletion of `k` would have kept it
        have kept : ∀ x ∈ rest, x.key ≠ k := by
          intro x member
          rw [equal] at member
          simpa using List.of_mem_filter member
        rw [List.filter_eq_self.mpr (by simpa [same] using kept)] at equal
        exact List.cons_ne_self e rest equal.symm
    · have other : e.key ≠ k := fun same => above same.ge
      rw [remove_cons_miss rest above, List.filter_cons_of_pos (by simpa using other),
        List.cons_inj_right, ih ordered]
      simp [Unshadowed, above]

end Binding

end Chain
