import PpsDht.TableRefinement

/-! The life of a table in memory: it is constructed, called any number of times, with any
allocations failing, and deleted. A run on memory returns what the run on lists returns. It
faults only where that run does, and what it leaves allocated is accounted for block by
block: the table, the copies its caller was given, and what the calls lost. -/
namespace PpsDht

open CLib Loop Heap Prog

inductive TableCall where
  | add (key value : CString)
  | get (key : CString)
  | del (key : CString)

/-- What a call returns; a value is a pointer in memory, a string on lists. -/
inductive TableResult (Value : Type) where
  | code (error : ErrorCode)
  | value (v : Value)
  deriving DecidableEq

namespace TableCall

def onLists (t : Htable) (a : Alloc) :
    TableCall → Outcome (TableResult (Option CString) × Htable × Alloc)
  | add key value =>
    match addHtableValue t key value a with
    | (error, t, a) => .done (.code error, t, a)
  | get key =>
    match getHtableValue t key a with
    | (value, a) => .done (.value value, t, a)
  | del key => (delHtableKey t key).bind fun (error, t) => .done (.code error, t, a)

def onMemory (fuel granted : Nat) (table : Ptr) : TableCall → Mem (TableResult Ptr)
  | add key value => do
    let error ← Mem.addHtableValue fuel granted table key value
    return .code error
  | get key => do
    let p ← Mem.getHtableValue fuel table key
    return .value p
  | del key => do
    let error ← Mem.delHtableKey fuel table key
    return .code error

def lost (granted : Nat) (t : Htable) (a : Alloc) : TableCall → List Cell
  | add key _ => t.addLost key a
  | get _ => []
  | del key => t.delLost granted key

end TableCall

/-- A run on lists: the results, the table, the allocations left, and what was lost. -/
structure ListRun where
  results : List (TableResult (Option CString))
  table : Htable
  supply : Alloc
  lost : List Cell
  deriving DecidableEq

def runOnLists (granted : Nat) : List TableCall → Htable → Alloc → Outcome ListRun
  | [], t, a => .done ⟨[], t, a, []⟩
  | call :: calls, t, a =>
    (call.onLists t a).bind fun (result, t', a') =>
      (runOnLists granted calls t' a').bind fun run =>
        .done { run with results := result :: run.results, lost := call.lost granted t a ++ run.lost }

def runOnMemory (fuel granted : Nat) (table : Ptr) : List TableCall → Mem (List (TableResult Ptr))
  | [] => return []
  | call :: calls => do
    let result ← call.onMemory fuel granted table
    let results ← runOnMemory fuel granted table calls
    return result :: results

/-- The same results, with the strings that the returned pointers own. -/
inductive Delivered :
    List (TableResult Ptr) → List (TableResult (Option CString)) → List (Ptr × Cell) → Prop where
  | nil : Delivered [] [] []
  | code {ps rs copies} (error : ErrorCode) (later : Delivered ps rs copies) :
      Delivered (.code error :: ps) (.code error :: rs) copies
  | value {ps rs copies p result copy} (returned : Returned p result copy)
      (later : Delivered ps rs copies) :
      Delivered (.value p :: ps) (.value result :: rs) (copy ++ copies)

section Run

variable {m : Ram} {frame : List (Ptr × Cell)} {granted : Nat} {l : Layout}

theorem TableCall.onLists_within {call : TableCall} {t t' : Htable} {a a' : Alloc} {bound : Nat}
    {result : TableResult (Option CString)} (within : t.Within bound) (positive : 0 < t.size)
    (called : call.onLists t a = .done (result, t', a')) :
    t'.Within (bound + 1) ∧ t'.size = t.size := by
  have wider : t.Within (bound + 1) := fun index => Nat.le_succ_of_le (within index)
  cases call with
  | add key value =>
    obtain ⟨left, added | failed⟩ := addHtableValue_cases t key value a
    · simp only [onLists, added, Outcome.done.injEq, Prod.mk.injEq] at called
      obtain ⟨_, rfl, _⟩ := called
      exact ⟨within.put positive key value, t.size_put key value⟩
    · simp only [onLists, failed, Outcome.done.injEq, Prod.mk.injEq] at called
      obtain ⟨_, rfl, _⟩ := called
      exact ⟨wider, rfl⟩
  | get key =>
    simp only [onLists, Outcome.done.injEq, Prod.mk.injEq] at called
    obtain ⟨_, rfl, _⟩ := called
    exact ⟨wider, rfl⟩
  | del key =>
    rcases delHtableKey_cases t key with ⟨_, fault⟩ | ⟨_, deleted⟩
    · simp [onLists, fault, Outcome.bind] at called
    · simp only [onLists, deleted, Outcome.bind, Outcome.done.injEq, Prod.mk.injEq] at called
      obtain ⟨_, rfl, _⟩ := called
      refine ⟨fun index => ?_, t.size_remove key⟩
      exact Nat.le_succ_of_le (within.remove positive key index)

theorem runOnLists_within {calls : List TableCall} {t : Htable} {a : Alloc} {bound : Nat}
    {run : ListRun} (within : t.Within bound) (positive : 0 < t.size)
    (ran : runOnLists granted calls t a = .done run) :
    run.table.Within (bound + calls.length) := by
  induction calls generalizing t a bound run with
  | nil =>
    cases ran
    exact within
  | cons call calls ih =>
    obtain ⟨⟨result, t', a'⟩, called, later⟩ := Outcome.bind_eq_done_iff.mp ran
    obtain ⟨rest, ranRest, same⟩ := Outcome.bind_eq_done_iff.mp later
    cases same
    obtain ⟨next, size⟩ := TableCall.onLists_within within positive called
    have kept := ih next (size ▸ positive) ranRest
    rwa [List.length_cons, Nat.add_comm calls.length, ← Nat.add_assoc]

theorem TableCall.onMemory_done {call : TableCall} {fuel bound : Nat} {t' : Htable} {a' : Alloc}
    {result : TableResult (Option CString)} (room : 24 ≤ granted)
    (memory : l.Holds granted frame m) (within : l.table.Within bound) (enough : bound < fuel)
    (called : call.onLists l.table m.supply = .done (result, t', a')) :
    wp (call.onMemory fuel granted l.address) (fun p m' =>
      ∃ (l' : Layout) (copies lost : List (Ptr × Cell)), Delivered [p] [result] copies ∧
        m'.supply = a' ∧ l'.table = t' ∧ l'.address = l.address ∧
        lost.map Prod.snd = call.lost granted l.table m.supply ∧
        l'.Holds granted (copies ++ lost ++ frame) m') m := by
  have reach (key : CString) : (l.chain (hashFunction key l.chains.length)).length < fuel :=
    Nat.lt_of_le_of_lt (l.length_chain_le within _) enough
  cases call with
  | add key value =>
    refine wp_bind (wp_mono (wp_addHtableValue room memory (reach key)) ?_)
    rintro error m' ⟨l', lost, added, same, dropped, holds⟩
    simp only [onLists, added, Outcome.done.injEq, Prod.mk.injEq] at called
    obtain ⟨rfl, rfl, rfl⟩ := called
    exact wp_pure ⟨l', [], lost, .code error .nil, rfl, rfl, same, dropped, holds⟩
  | get key =>
    refine wp_bind (wp_mono (wp_getHtableValue room memory (reach key)) ?_)
    rintro p m' ⟨value, copy, got, returned, holds⟩
    simp only [onLists, got, Outcome.done.injEq, Prod.mk.injEq] at called
    obtain ⟨rfl, rfl, rfl⟩ := called
    refine wp_pure ⟨l, copy, [], ?_, rfl, rfl, rfl, rfl, ?_⟩
    · simpa using Delivered.value returned .nil
    · simpa using holds
  | del key =>
    rcases delHtableKey_cases l.table key with ⟨_, fault⟩ | ⟨behind, deleted⟩
    · simp [onLists, fault, Outcome.bind] at called
    · refine wp_bind (wp_mono (wp_delHtableKey room memory (reach key) behind) ?_)
      rintro error m' ⟨l', lost, rfl, kept, removed, same, dropped, holds⟩
      simp only [onLists, deleted, Outcome.bind, Outcome.done.injEq, Prod.mk.injEq] at called
      obtain ⟨rfl, rfl, rfl⟩ := called
      exact wp_pure ⟨l', [], lost, .code _ .nil, kept, removed, same, dropped, holds⟩

theorem TableCall.onMemory_fault {call : TableCall} {fuel : Nat} (room : 24 ≤ granted)
    (memory : l.Holds granted frame m) (enough : 0 < fuel)
    (called : call.onLists l.table m.supply = .fault) :
    call.onMemory fuel granted l.address m = .fault := by
  cases call with
  | add key value => simp [onLists] at called
  | get key => simp [onLists] at called
  | del key =>
    rcases delHtableKey_cases l.table key with ⟨front, _⟩ | ⟨_, deleted⟩
    · exact fault_bind (delHtableKey_fault room memory enough front)
    · simp [onLists, deleted, Outcome.bind] at called

theorem TableCall.onLists_ne_outOfFuel (call : TableCall) (t : Htable) (a : Alloc) :
    call.onLists t a ≠ .outOfFuel := by
  cases call with
  | add key value => simp [onLists]
  | get key => simp [onLists]
  | del key =>
    rcases delHtableKey_cases t key with ⟨_, fault⟩ | ⟨_, deleted⟩
    · simp [onLists, fault, Outcome.bind]
    · simp [onLists, deleted, Outcome.bind]

def RanAlike (granted : Nat) (address : Ptr) (frame : List (Ptr × Cell)) (run : ListRun)
    (results : List (TableResult Ptr)) (m' : Ram) : Prop :=
  ∃ (l' : Layout) (copies lost : List (Ptr × Cell)), Delivered results run.results copies ∧
    m'.supply = run.supply ∧ l'.table = run.table ∧ l'.address = address ∧
    lost.map Prod.snd = run.lost ∧ l'.Holds granted (copies ++ lost ++ frame) m'

theorem Delivered.cons {p : TableResult Ptr} {r : TableResult (Option CString)}
    {ps : List (TableResult Ptr)} {rs : List (TableResult (Option CString))}
    {copy copies : List (Ptr × Cell)} (first : Delivered [p] [r] copy)
    (later : Delivered ps rs copies) : Delivered (p :: ps) (r :: rs) (copy ++ copies) := by
  cases first with
  | code error done =>
    cases done
    exact .code error later
  | value returned done =>
    cases done
    rw [List.append_nil]
    exact .value returned later

theorem runOnMemory_refines (calls : List TableCall) {fuel bound : Nat} (room : 24 ≤ granted)
    (memory : l.Holds granted frame m) (within : l.table.Within bound)
    (enough : bound + calls.length < fuel) :
    match runOnLists granted calls l.table m.supply with
    | .done run =>
      wp (runOnMemory fuel granted l.address calls) (RanAlike granted l.address frame run) m
    | .fault => runOnMemory fuel granted l.address calls m = .fault
    | .outOfFuel => False := by
  induction calls generalizing l m frame bound with
  | nil => exact wp_pure ⟨l, [], [], .nil, rfl, rfl, rfl, rfl, memory⟩
  | cons call calls ih =>
    rw [List.length_cons] at enough
    have reach : bound < fuel := by omega
    have positive : 0 < l.table.size := by
      rw [l.size_table]
      exact memory.positive
    simp only [runOnLists]
    cases called : call.onLists l.table m.supply with
    | done next =>
      obtain ⟨result, t', a'⟩ := next
      have kept := TableCall.onLists_within within positive called
      have step := TableCall.onMemory_done room memory within reach called
      simp only [Outcome.bind]
      cases ran : runOnLists granted calls t' a' with
      | done run =>
        refine wp_bind (wp_mono step ?_)
        rintro p m₁ ⟨l₁, copies₁, lost₁, delivered₁, rfl, rfl, same₁, dropped₁, holds₁⟩
        have later := ih holds₁ kept.1 (by omega)
        rw [ran, same₁] at later
        refine wp_bind (wp_mono later ?_)
        rintro ps m₂ ⟨l₂, copies₂, lost₂, delivered₂, left, table, same₂, dropped₂, positive₂, holds₂⟩
        refine wp_pure ⟨l₂, copies₁ ++ copies₂, lost₁ ++ lost₂, delivered₁.cons delivered₂, left,
          table, same₂, ?_, positive₂, holds₂.perm (by grind)⟩
        rw [List.map_append, dropped₁, dropped₂]
      | fault =>
        refine bind_eq_of_wp (wp_mono step ?_)
        rintro p m₁ ⟨l₁, copies₁, lost₁, delivered₁, rfl, rfl, same₁, dropped₁, holds₁⟩
        have later := ih holds₁ kept.1 (by omega)
        rw [ran, same₁] at later
        exact fault_bind later
      | outOfFuel =>
        obtain ⟨_, m₁, _, l₁, _, _, _, rfl, rfl, _, _, holds₁⟩ := step
        have later := ih holds₁ kept.1 (by omega)
        rwa [ran] at later
    | fault => exact fault_bind (TableCall.onMemory_fault room memory (by omega) called)
    | outOfFuel => exact absurd called (call.onLists_ne_outOfFuel _ _)

end Run

/-! The whole life of a table. -/

def lifetime (fuel granted size : Nat) (calls : List TableCall) : Mem (List (TableResult Ptr)) := do
  let table ← Mem.constructHtable size
  if table = 0 then return []
  let results ← runOnMemory fuel granted table calls
  let _ ← Mem.deleteHtableAndContent fuel table
  return results

theorem map_snd_spent (granted : Nat) (chains : List (List Link)) :
    (chains.flatMap (spent granted)).map Prod.snd =
      List.replicate (chains.flatMap fun chain => chain.map Link.entry).length
        (.node granted ⟨0, 0, 0⟩) := by
  induction chains with
  | nil => rfl
  | cons chain chains ih =>
    rw [List.flatMap_cons, List.flatMap_cons, List.map_append, List.length_append, ih,
      List.replicate_add]
    simp [spent, Function.comp_def]

theorem Layout.length_content (l : Layout) :
    l.table.content.length = (l.chains.flatMap fun chain => chain.map Link.entry).length := by
  rw [Htable.content, List.flatMap_def]
  rfl

theorem constructHtable_empty {size : Nat} {a a' : Alloc} {t : Htable}
    (constructed : constructHtable size a = (some t, a')) : t = Htable.empty size := by
  rcases first : malloc a with ⟨_ | _, b⟩
  · simp [constructHtable, first] at constructed
  · rcases second : malloc b with ⟨_ | _, c⟩
    · simp [constructHtable, first, second] at constructed
    · simp only [constructHtable, first, second, Prod.mk.injEq, Option.some.injEq] at constructed
      exact constructed.1.symm

/-- After the life of a table all that its memory was is freed, but for the copies handed
out, what the calls lost, and one node for every pair that was left. -/
theorem lifetime_accounted (granted : Nat) (room : 24 ≤ granted) (size : Nat) (positive : 0 < size)
    (calls : List TableCall) (fuel : Nat) (enough : calls.length < fuel) (m : Ram)
    (frame : List (Ptr × Cell)) (holds : m.heap.Holds frame) :
    match constructHtable size m.supply with
    | (none, a) => wp (lifetime fuel granted size calls)
        (fun results m' => results = [] ∧ m'.supply = a ∧ m'.heap.Holds frame) m
    | (some t, a) =>
      match runOnLists granted calls t a with
      | .done run => wp (lifetime fuel granted size calls) (fun results m' =>
          ∃ copies lost, Delivered results run.results copies ∧ m'.supply = run.supply ∧
            lost.map Prod.snd = run.lost ++
              List.replicate run.table.content.length (.node granted ⟨0, 0, 0⟩) ∧
            m'.heap.Holds (copies ++ lost ++ frame)) m
      | .fault => lifetime fuel granted size calls m = .fault
      | .outOfFuel => False := by
  obtain ⟨table, m₁, constructed, result, same, new⟩ :=
    wp_constructHtable granted positive holds
  rw [same]
  cases result with
  | none =>
    obtain ⟨rfl, holds₁⟩ := new
    exact wp_bind ⟨0, m₁, constructed, wp_pure ⟨rfl, rfl, holds₁⟩⟩
  | some t =>
    obtain ⟨l, rfl, rfl, memory⟩ := new
    have empty : l.table.Within 0 := constructHtable_empty same ▸ Htable.within_empty size
    have live := memory.address_ne_null
    have reach : 0 + calls.length < fuel := by omega
    have run := runOnMemory_refines calls room memory empty reach
    dsimp only
    cases ran : runOnLists granted calls l.table m₁.supply with
    | done last =>
      rw [ran] at run
      refine wp_bind ⟨l.address, m₁, constructed, ?_⟩
      dsimp only
      rw [if_neg live]
      refine wp_bind (wp_mono run ?_)
      rintro results m₂ ⟨l₂, copies, lost, delivered, supply, table, same₂, dropped, memory₂⟩
      have grown : l₂.table.Within (0 + calls.length) := by
        rw [table]
        exact runOnLists_within empty (by rw [l.size_table]; exact memory.positive) ran
      have short := Layout.length_chain_lt grown reach
      rw [← same₂]
      refine wp_bind (wp_mono (wp_deleteHtableAndContent room memory₂ short) ?_)
      rintro handle m₃ ⟨_, supply₃, holds₃⟩
      refine wp_pure ⟨copies, lost ++ l₂.chains.flatMap (spent granted), delivered,
        supply₃.trans supply, ?_, holds₃.perm (by grind)⟩
      rw [List.map_append, dropped, map_snd_spent, ← table, l₂.length_content]
    | fault =>
      rw [ran] at run
      refine bind_eq_of_wp ⟨l.address, m₁, constructed, ?_⟩
      dsimp only
      rw [if_neg live]
      exact fault_bind run
    | outOfFuel => rwa [ran] at run

/-- A pair whose value cannot be copied at first, then stored and read: the reader's copy,
the copy of the key that was lost, and the node stay. -/
theorem lifetime_accounted_read :
    ∃ results m' live, lifetime 5 24 1 [.add (.ofMemory [97]) (.ofMemory [49]),
        .add (.ofMemory [97]) (.ofMemory [49]), .get (.ofMemory [97])]
        ⟨Heap.empty, [true, true, true, true, false]⟩ = .done (results, m') ∧
      m'.heap.Holds live ∧ live.map Prod.snd =
        [.string (.ofMemory [49]), .string (.ofMemory [97]), .node 24 ⟨0, 0, 0⟩] := by
  have whole := lifetime_accounted 24 (by decide) 1 (by decide)
    [.add (.ofMemory [97]) (.ofMemory [49]), .add (.ofMemory [97]) (.ofMemory [49]),
      .get (.ofMemory [97])] 5 (by decide) ⟨Heap.empty, [true, true, true, true, false]⟩ []
    Heap.holds_empty
  have built : constructHtable 1 [true, true, true, true, false] =
      (some (Htable.empty 1), [true, true, false]) := rfl
  have ran : runOnLists 24 [.add (.ofMemory [97]) (.ofMemory [49]),
      .add (.ofMemory [97]) (.ofMemory [49]), .get (.ofMemory [97])] (Htable.empty 1)
      [true, true, false] = .done ⟨[.code .nomem, .code .none, .value (some (.ofMemory [49]))],
        ⟨[[⟨.ofMemory [97], .ofMemory [49]⟩]]⟩, [], [.string (.ofMemory [97])]⟩ := by
    decide +kernel
  simp only [built, ran] at whole
  obtain ⟨results, m', ended, copies, lost, delivered, _, dropped, holds⟩ := whole
  cases delivered with | code _ delivered =>
  cases delivered with | code _ delivered =>
  cases delivered with | value returned delivered =>
  cases delivered
  obtain ⟨_, rfl⟩ := returned
  refine ⟨_, m', _, ended, holds, ?_⟩
  simp only [List.append_nil, List.map_append, dropped]
  rfl

/-! What `create_node` asks for: the size of a pointer, where a node takes three. -/

theorem createNode_fault {m : Ram} {blocks : List (Ptr × Cell)} {granted : Nat} {key value : CString}
    (small : granted < 16) (holds : m.heap.Holds blocks) (plenty : m.supply = []) :
    Mem.createNode granted key value m = .fault := by
  refine bind_eq_of_wp (wp_calloc malloc _ holds (fun m₁ s₁ h₁ => ?_) fun node m₁ live s₁ h₁ => ?_)
  · simp [plenty] at s₁
  rw [if_neg live]
  rw [plenty, malloc_nil, Prod.mk.injEq] at s₁
  refine bind_eq_of_wp (wp_calloc malloc _ h₁ (fun m₂ s₂ h₂ => ?_) fun copy m₂ liveKey s₂ h₂ => ?_)
  · simp [← s₁.2] at s₂
  by_cases smaller : granted < 8
  · exact fault_bind (storeField_fault .key copy smaller (h₂.perm (List.Perm.swap ..)))
  refine bind_eq_of_wp (wp_storeField .key copy (Nat.le_of_not_lt smaller)
    (h₂.perm (List.Perm.swap ..)) fun m₃ s₃ h₃ => ?_)
  rw [if_neg liveKey]
  rw [← s₁.2, malloc_nil, Prod.mk.injEq] at s₂
  refine bind_eq_of_wp (wp_calloc malloc _ h₃ (fun m₄ s₄ h₄ => ?_) fun last m₄ _ s₄ h₄ => ?_)
  · simp [s₃, ← s₂.2] at s₄
  · exact fault_bind (storeField_fault .value last small (h₄.perm (List.Perm.swap ..)))

theorem first_fault {m : Ram} {frame : List (Ptr × Cell)} {granted fuel : Nat} {l : Layout}
    {key value : CString} (small : granted < 16) (memory : l.Holds granted frame m)
    (plenty : m.supply = []) (whole : l.chain (hashFunction key l.chains.length) = []) :
    Mem.addHtableValue fuel granted l.address key value m = .fault := by
  rw [Mem.addHtableValue, if_neg memory.address_ne_null]
  refine bind_eq_of_wp (memory.wp_loadTable ?_)
  dsimp only
  rw [if_neg memory.elements_ne_null]
  refine bind_eq_of_wp (memory.wp_loadHead key ?_)
  rw [whole, headOf_nil, if_pos rfl]
  exact fault_bind (createNode_fault small memory.holds plenty)

theorem second_fault {m : Ram} {frame : List (Ptr × Cell)} {granted fuel : Nat} {l : Layout}
    {key value : CString} {link : Link} (room : 16 ≤ granted) (small : granted < 24)
    (memory : l.Holds granted frame m) (enough : 0 < fuel)
    (whole : l.chain (hashFunction key l.chains.length) = [link])
    (apart : ¬ keyMatches link.entry key) :
    Mem.addHtableValue fuel granted l.address key value m = .fault := by
  obtain ⟨fuel, rfl⟩ : ∃ k, fuel = k + 1 := ⟨fuel - 1, by omega⟩
  have focus := memory.focus key
  rw [whole, chainBlocks_cons, List.append_assoc] at focus
  have live := address_ne_null focus
  rw [Mem.addHtableValue, if_neg memory.address_ne_null]
  refine bind_eq_of_wp (memory.wp_loadTable ?_)
  dsimp only
  rw [if_neg memory.elements_ne_null]
  refine bind_eq_of_wp (memory.wp_loadHead key ?_)
  rw [whole, headOf_cons, if_neg live]
  refine fault_bind ?_
  rw [Mem.updateLoop, if_neg live]
  refine bind_eq_of_wp (wp_matchesAt (Nat.le_trans (by decide) room) focus ?_)
  rw [if_neg (by simpa using apart)]
  exact fault_bind (loadField_fault .next small focus List.mem_cons_self)

def filled (fuel granted size : Nat) (calls : List TableCall) : Mem (List (TableResult Ptr)) := do
  let table ← Mem.constructHtable size
  runOnMemory fuel granted table calls

/-- Without failing allocations the first pair of a table needs nodes of 16 bytes, and two
pairs in one chain need nodes of 24 bytes: with less the calls write and read beyond the
node. `create_node` asks for 8. -/
theorem node_fits_iff (granted size : Nat) (positive : 0 < size) (key key' value value' : CString)
    (together : hashFunction key' size = hashFunction key size) (apart : ¬ key' ≤ key)
    (fuel : Nat) (enough : 2 < fuel) (m : Ram) (frame : List (Ptr × Cell))
    (holds : m.heap.Holds frame) (plenty : m.supply = []) :
    (filled fuel granted size [.add key value] m = .fault ↔ granted < 16) ∧
      (filled fuel granted size [.add key value, .add key' value'] m = .fault ↔ granted < 24) := by
  obtain ⟨table, m₁, built, result, same, new⟩ := wp_constructHtable granted positive holds
  rw [plenty] at same
  obtain rfl : result = some (Htable.empty size) := (Prod.mk.inj same).1.symm
  have left : m₁.supply = [] := (Prod.mk.inj same).2.symm
  obtain ⟨l, rfl, empty, memory⟩ := new
  have run (calls : List TableCall) :
      filled fuel granted size calls m = runOnMemory fuel granted l.address calls m₁ :=
    bind_eq_of_wp ⟨l.address, m₁, built, rfl⟩
  rw [run, run]
  have none : l.chain (hashFunction key l.chains.length) = [] := by
    rw [← List.map_eq_nil_iff, ← l.bucket_table, empty, Htable.bucket_empty]
  by_cases small : granted < 16
  · have fault : Mem.addHtableValue fuel granted l.address key value m₁ = .fault :=
      first_fault small memory left none
    have less : granted < 24 := Nat.lt_trans small (by decide)
    exact ⟨iff_of_true (fault_bind (fault_bind fault)) small,
      iff_of_true (fault_bind (fault_bind fault)) less⟩
  have room : 16 ≤ granted := Nat.le_of_not_lt small
  obtain ⟨error, m₂, added, l₂, lost, onLists, place, _, memory₂⟩ :
    wp (Mem.addHtableValue fuel granted l.address key value) _ m₁ :=
      wp_addHtableValue_first room memory none
  have first : wp (runOnMemory fuel granted l.address [.add key value]) (fun _ _ => True) m₁ :=
    wp_bind (wp_bind ⟨error, m₂, added, wp_pure (wp_bind (wp_pure (wp_pure trivial)))⟩)
  refine ⟨iff_of_false (ne_fault_of_wp first) small, ?_⟩
  by_cases less : granted < 24
  · refine iff_of_true ?_ less
    rw [left, addHtableValue_nil, empty, Prod.mk.injEq, Prod.mk.injEq] at onLists
    obtain ⟨_, table₂, _⟩ := onLists
    have chain : (l₂.chain (hashFunction key' l₂.chains.length)).map Link.entry = [⟨key, value⟩] := by
      rw [← l₂.bucket_table, ← l₂.size_table, ← table₂, Htable.size_put, Htable.size_empty, together,
        Htable.bucket_put _ (by rwa [Htable.size_empty]), Htable.size_empty, if_pos rfl,
        Htable.bucket_empty]
      exact Chain.put_of_miss key value [] (by simp)
    obtain ⟨link, chain', whole, entry, rest⟩ := List.map_eq_cons_iff.mp chain
    rw [List.map_eq_nil_iff] at rest
    subst rest
    have other : ¬ keyMatches link.entry key' := by rwa [entry, keyMatches_iff]
    have fault : Mem.addHtableValue fuel granted l₂.address key' value' m₂ = .fault :=
      second_fault room less memory₂ (Nat.lt_trans (by decide) enough) whole other
    rw [place] at fault
    refine bind_eq_of_wp (wp_bind ⟨error, m₂, added, wp_pure ?_⟩)
    exact fault_bind (fault_bind (fault_bind fault))
  · have refines := runOnMemory_refines [.add key value, .add key' value'] (Nat.le_of_not_lt less)
      memory (empty ▸ Htable.within_empty size) (show 0 + 2 < fuel by omega)
    simp only [left, runOnLists, TableCall.onLists, addHtableValue_nil, Outcome.bind] at refines
    exact iff_of_false (ne_fault_of_wp refines) less

/-- An allocator that grants the 8 bytes asked for. -/
theorem node_fits_iff_granted_8 :
    filled 3 8 1 [.add (.ofMemory [98]) (.ofMemory [49])] ⟨Heap.empty, []⟩ = .fault :=
  (node_fits_iff 8 1 (by decide) (.ofMemory [98]) (.ofMemory [97]) (.ofMemory [49])
    (.ofMemory [50]) (by decide +kernel) (by decide) 3 (by decide) ⟨Heap.empty, []⟩ []
    Heap.holds_empty rfl).1.mpr (by decide)

end PpsDht
