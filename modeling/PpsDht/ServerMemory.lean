import PpsDht.KvListMemory
import PpsDht.Server
import PpsDht.TableRuns

/-! The server of `launch-server.c` over the heap, for as many datagrams as it receives. It
answers what the server on lists answers. It never frees the copy of a value that it has
sent, nor the list of a dump, and the blocks that a run leaves allocated are counted. -/
namespace PpsDht

open CLib Loop Heap Prog

namespace Mem

/-- A part of the program that touches no block. -/
def lift (outcome : Outcome α) : Mem α := fun m => outcome.bind fun a => .done (a, m)

def serveGetRequest (fuel : Nat) (table : Ptr) (key : CString) : Mem (List (List UInt8)) := do
  let p ← getHtableValue fuel table key
  if p = 0 then return []
  let value ← loadString p
  return [value.bytes]

def serveWriteRequest (fuel granted : Nat) (table : Ptr) (key value : CString) :
    Mem (List (List UInt8)) := do
  let error ← addHtableValue fuel granted table key value
  return if error = .none then [[]] else []

def readPairs (elems : Ptr) : Nat → Nat → Mem (List KvPair)
  | 0, _ => return []
  | left + 1, i => do
    let (key, value) ← loadPair (.inArray elems i)
    let key ← loadString key
    let value ← loadString value
    let later ← readPairs elems left (i + 1)
    return ⟨key, value⟩ :: later

def serveDumpNode (fuel : Nat) (table : Ptr) : Mem (List (List UInt8)) := do
  let list ← getHtableContent fuel table
  if list = 0 then return []
  let (elems, size, _) ← loadKvList list
  let pairs ← readPairs elems size 0
  let sent ← lift (iterate dumpStep fuel ⟨dumpHeader size, pairs, []⟩)
  kvListFree list
  return sent

def serve (fuel granted : Nat) (table : Ptr) (payload : List UInt8) : Mem (List (List UInt8)) :=
  match receiveRequest payload with
  | none => Prog.fault
  | some .alive => return [[]]
  | some .dump => serveDumpNode fuel table
  | some (.write key value) => serveWriteRequest fuel granted table key value
  | some (.get key) => serveGetRequest fuel table key

def receiveLoop (fuel granted : Nat) (table : Ptr) :
    List (List UInt8) → Mem (List (List (List UInt8)))
  | [] => return []
  | payload :: payloads => do
    let sent ← serve fuel granted table payload
    let later ← receiveLoop fuel granted table payloads
    return sent :: later

/-- `main` from the construction of its table on, for the datagrams of a run; none when
the table cannot be constructed. -/
def main (fuel granted : Nat) (payloads : List (List UInt8)) :
    Mem (Option (List (List (List UInt8)))) := do
  let table ← constructHtable htableSize
  if table = 0 then return none
  let replies ← receiveLoop fuel granted table payloads
  return some replies

end Mem

/-! The server on lists, with the allocations it leaves and the blocks it loses. -/

structure Turn where
  sent : List (List UInt8)
  table : Htable
  supply : Alloc
  lost : Nat
  deriving DecidableEq

/-- The array and two copies for each pair of an abandoned listing. -/
def abandoned : Option (List KvPair) → Nat
  | none => 0
  | some pairs => 1 + 2 * pairs.length

def turn (fuel : Nat) (t : Htable) (payload : List UInt8) (a : Alloc) : Outcome Turn :=
  match receiveRequest payload with
  | none => .fault
  | some .alive => .done ⟨[[]], t, a, 0⟩
  | some .dump =>
    (getHtableContent fuel t a).bind fun
      | (none, a') => .done ⟨[], t, a', abandoned (listingLost fuel t a)⟩
      | (some list, a') =>
        (iterate dumpStep fuel ⟨dumpHeader list.size, list.elems, []⟩).bind fun sent =>
          .done ⟨sent, t, a', 1⟩
  | some (.write key value) =>
    match addHtableValue t key value a with
    | (error, t', a') => .done ⟨if error = .none then [[]] else [], t', a', (t.addLost key a).length⟩
  | some (.get key) =>
    match getHtableValue t key a with
    | (some value, a') => .done ⟨[value.bytes], t, a', 1⟩
    | (none, a') => .done ⟨[], t, a', 0⟩

theorem turn_serve (fuel : Nat) (t : Htable) (payload : List UInt8) (a : Alloc) :
    ((turn fuel t payload a).bind fun turn => .done (turn.table, turn.sent)) =
      serve fuel t payload a := by
  rw [turn, serve]
  cases receiveRequest payload with
  | none => rfl
  | some request =>
    cases request with
    | alive => rfl
    | dump =>
      simp only [serveDumpNode]
      rcases getHtableContent fuel t a with ⟨_ | list, a'⟩ | _ | _
      · rfl
      · simp only [Outcome.bind]
        cases iterate dumpStep fuel ⟨dumpHeader list.size, list.elems, []⟩ <;> rfl
      · rfl
      · rfl
    | write key value =>
      obtain ⟨rest, added | failed⟩ := addHtableValue_cases t key value a
      · simp only [added, serveWriteRequest]
        rfl
      · simp only [failed, serveWriteRequest]
        rfl
    | get key =>
      simp only [serveGetRequest]
      rcases getHtableValue t key a with ⟨_ | value, a'⟩ <;> rfl

structure ServerRun where
  replies : List (List (List UInt8))
  table : Htable
  supply : Alloc
  lost : Nat
  deriving DecidableEq

def turns (fuel : Nat) : List (List UInt8) → Htable → Alloc → Outcome ServerRun
  | [], t, a => .done ⟨[], t, a, 0⟩
  | payload :: payloads, t, a =>
    (turn fuel t payload a).bind fun first =>
      (turns fuel payloads first.table first.supply).bind fun later =>
        .done { later with replies := first.sent :: later.replies, lost := first.lost + later.lost }

/-! Dumps end. -/

theorem fillMessage_shorter {msg msg' : List UInt8} {current : KvPair} {rest left : List KvPair}
    (filled : fillMessage msg current rest = .done (msg', left)) : left.length ≤ rest.length := by
  induction rest generalizing msg current with
  | nil =>
    simp only [fillMessage] at filled
    split at filled
    · cases filled
    · cases filled
      exact Nat.le_refl _
  | cons next rest ih =>
    simp only [fillMessage] at filled
    split at filled
    · cases filled
    · split at filled
      · exact Nat.le_succ_of_le (ih filled)
      · cases filled
        exact Nat.le_refl _

theorem dumpStep_shorter (s s' : DumpState) (next : dumpStep s = .next s') :
    s'.pairs.length < s.pairs.length := by
  unfold dumpStep at next
  cases pairs : s.pairs with
  | nil => simp [pairs] at next
  | cons current rest =>
    simp only [pairs] at next
    cases filled : fillMessage s.msg current rest with
    | done result =>
      obtain ⟨msg, left⟩ := result
      simp only [filled] at next
      split at next
      · cases next
      · cases next
        exact Nat.lt_succ_of_le (fillMessage_shorter filled)
    | fault => simp [filled] at next
    | outOfFuel => simp [filled] at next

/-! One turn in memory. -/

variable {m : Ram} {blocks rest frame : List (Ptr × Cell)} {granted : Nat} {l : Layout}

theorem wp_readPairs {elems : Ptr} {post : List KvPair → Ram → Prop} (copies : List Copied)
    (front back : List (Option (Ptr × Ptr))) (holds : m.heap.Holds blocks)
    (array : (elems, .kvPairs (front ++ (copies.map Copied.slot ++ back))) ∈ blocks)
    (strings : ∀ b ∈ copies.flatMap Copied.blocks, b ∈ blocks)
    (right : post (copies.map Copied.entry) m) :
    wp (Mem.readPairs elems copies.length front.length) post m := by
  induction copies generalizing front post with
  | nil => exact wp_pure right
  | cons c copies ih =>
    have slot : (front ++ ((c :: copies).map Copied.slot ++ back))[front.length]? =
        some (some (c.keyAddress, c.valueAddress)) := by simp [Copied.slot]
    have own : ∀ b ∈ c.blocks, b ∈ blocks := fun b member =>
      strings b (List.mem_append_left _ member)
    refine wp_bind (wp_bind (wp_load holds array ?_))
    simp only [slot]
    refine wp_pure (wp_bind (wp_loadString holds (own _ List.mem_cons_self) ?_))
    refine wp_bind (wp_loadString holds (own _ (List.mem_cons_of_mem _ List.mem_cons_self)) ?_)
    have next : (elems, Cell.kvPairs ((front ++ [c.slot]) ++ (copies.map Copied.slot ++ back))) ∈
        blocks := by simpa using array
    have length : front.length + 1 = (front ++ [c.slot]).length := by
      rw [List.length_append, List.length_singleton]
    rw [length]
    exact wp_bind (ih (front ++ [c.slot]) next
      (fun b member => strings b (List.mem_append_right _ member)) (wp_pure right))

theorem length_abandoned {lost : List (Ptr × Cell)} {pairs : Option (List KvPair)}
    (left : Abandoned lost pairs) : lost.length = abandoned pairs := by
  cases pairs with
  | none => rw [left, abandoned, List.length_nil]
  | some pairs =>
    obtain ⟨list, rfl, rfl⟩ := left
    have two : (list.copies.flatMap Copied.blocks).length = 2 * list.copies.length := by
      induction list.copies with
      | nil => rfl
      | cons c copies ih =>
        rw [List.flatMap_cons, List.length_append, ih, List.length_cons, Copied.blocks]
        simp only [List.length_cons, List.length_nil]
        omega
    rw [ListLayout.held, List.length_cons, two, abandoned, List.length_map, Nat.add_comm]

theorem Htable.Within.length_content {t : Htable} {bound : Nat} (within : t.Within bound) :
    t.content.length ≤ t.size * bound := by
  have short (chain) (member : chain ∈ t.elements) : chain.length ≤ bound := by
    obtain ⟨index, inside, rfl⟩ := List.mem_iff_getElem.mp member
    have bucket := within index
    rwa [Htable.bucket, List.getD_eq_getElem?_getD, List.getElem?_eq_getElem inside,
      Option.getD_some] at bucket
  have total (chains : List Bucket) (each : ∀ chain ∈ chains, chain.length ≤ bound) :
      chains.flatten.length ≤ chains.length * bound := by
    induction chains with
    | nil => simp
    | cons chain chains ih =>
      have first := each chain List.mem_cons_self
      have later := ih fun c member => each c (List.mem_cons_of_mem _ member)
      rw [List.flatten_cons, List.length_append, List.length_cons, Nat.add_mul, Nat.one_mul]
      omega
  exact total t.elements short

/-- Fuel for all pairs is fuel for each chain. -/
theorem Layout.Holds.bound_lt (memory : l.Holds granted frame m) {bound fuel : Nat}
    (enough : l.table.size * bound < fuel) : bound < fuel := by
  have more : 1 * bound ≤ l.chains.length * bound := Nat.mul_le_mul_right bound memory.positive
  rw [l.size_table] at enough
  omega

def TurnedAlike (granted : Nat) (address : Ptr) (frame : List (Ptr × Cell)) (turn : Turn)
    (sent : List (List UInt8)) (m' : Ram) : Prop :=
  ∃ (l' : Layout) (lost : List (Ptr × Cell)), sent = turn.sent ∧ m'.supply = turn.supply ∧
    l'.table = turn.table ∧ l'.address = address ∧ lost.length = turn.lost ∧
    l'.Holds granted (lost ++ frame) m'

theorem serveDumpNode_refines {payload : List UInt8} {fuel bound : Nat} (room : 24 ≤ granted)
    (memory : l.Holds granted frame m) (within : l.table.Within bound)
    (enough : l.table.size * bound < fuel) (request : receiveRequest payload = some .dump) :
    match turn (fuel + 2) l.table payload m.supply with
    | .done turn => wp (Mem.serveDumpNode (fuel + 2) l.address)
        (TurnedAlike granted l.address frame turn) m
    | .fault => Mem.serveDumpNode (fuel + 2) l.address m = .fault
    | .outOfFuel => False := by
  have short : ∀ chain ∈ l.chains, chain.length < fuel + 2 :=
    Layout.length_chain_lt within (Nat.lt_add_right 2 (memory.bound_lt enough))
  obtain ⟨p, m₁, listed, result, content, rest⟩ := wp_getHtableContent room memory short
  simp only [turn, request, content, Outcome.bind]
  cases result with
  | none =>
    obtain ⟨rfl, lost, left, h₁⟩ := rest
    refine wp_bind ⟨0, m₁, listed, wp_pure ⟨l, lost, rfl, rfl, rfl, rfl, length_abandoned left,
      memory.positive, h₁.perm ?_⟩⟩
    grind
  | some list =>
    obtain ⟨live, _, l₁, rfl, rfl, h₁⟩ := rest
    obtain ⟨whole, _, _⟩ := getHtableContent_some content
    have copies : l₁.size = l₁.copies.length := ListLayout.counted content
    have few : l₁.list.elems.length < fuel + 2 := by
      have content := within.length_content
      rw [← whole] at content
      omega
    have ends : iterate dumpStep (fuel + 2) ⟨dumpHeader l₁.list.size, l₁.list.elems, []⟩ ≠
        .outOfFuel :=
      iterate_ends_of_decreasing (fun s : DumpState => s.pairs.length) dumpStep_shorter few
    have array : (l₁.elems, Cell.kvPairs l₁.slots) ∈ l₁.blocks ++ (l.blocks granted ++ frame) :=
      List.mem_cons_of_mem _ List.mem_cons_self
    have strings : ∀ b ∈ l₁.copies.flatMap Copied.blocks,
        b ∈ l₁.blocks ++ (l.blocks granted ++ frame) := fun b member =>
      List.mem_append_left _ (List.mem_cons_of_mem _ (List.mem_cons_of_mem _ member))
    dsimp only
    cases dumped : iterate dumpStep (fuel + 2) ⟨dumpHeader l₁.list.size, l₁.list.elems, []⟩ with
    | done sent =>
      refine wp_bind ⟨_, m₁, listed, ?_⟩
      dsimp only
      rw [if_neg live]
      refine wp_bind (wp_loadKvList h₁ List.mem_cons_self ?_)
      dsimp only
      rw [copies]
      refine wp_bind (wp_readPairs l₁.copies [] l₁.spare h₁ array strings ?_)
      rw [← copies]
      refine wp_bind ⟨sent, m₁, by rw [Mem.lift]; exact congrArg (Outcome.bind · _) dumped, ?_⟩
      refine wp_bind (wp_kvListFree copies h₁ fun m₂ s₂ h₂ => wp_pure ?_)
      exact ⟨l, [(l₁.address, .kvList 0 0 0)], rfl, s₂, rfl, rfl, rfl, memory.positive,
        h₂.perm (by grind)⟩
    | fault =>
      refine bind_eq_of_wp ⟨_, m₁, listed, ?_⟩
      dsimp only
      rw [if_neg live]
      refine bind_eq_of_wp (wp_loadKvList h₁ List.mem_cons_self ?_)
      dsimp only
      rw [copies]
      refine bind_eq_of_wp (wp_readPairs l₁.copies [] l₁.spare h₁ array strings ?_)
      rw [← copies]
      exact fault_bind (by rw [Mem.lift]; exact congrArg (Outcome.bind · _) dumped)
    | outOfFuel => exact absurd dumped ends

theorem serve_refines (payload : List UInt8) {fuel bound : Nat} (room : 24 ≤ granted)
    (memory : l.Holds granted frame m) (within : l.table.Within bound)
    (enough : l.table.size * bound < fuel) :
    match turn (fuel + 2) l.table payload m.supply with
    | .done turn => wp (Mem.serve (fuel + 2) granted l.address payload)
        (TurnedAlike granted l.address frame turn) m
    | .fault => Mem.serve (fuel + 2) granted l.address payload m = .fault
    | .outOfFuel => False := by
  have reach (key : CString) : (l.chain (hashFunction key l.chains.length)).length < fuel + 2 := by
    have short := l.length_chain_le within (hashFunction key l.chains.length)
    have below := memory.bound_lt enough
    omega
  cases request : receiveRequest payload with
  | none =>
    simp only [turn, request, Mem.serve]
    rfl
  | some kind =>
    cases kind with
    | alive =>
      simp only [turn, request, Mem.serve]
      exact wp_pure ⟨l, [], rfl, rfl, rfl, rfl, rfl, memory⟩
    | dump =>
      rw [Mem.serve, request]
      exact serveDumpNode_refines room memory within enough request
    | write key value =>
      obtain ⟨error, m₁, ran, l₁, lost, added, place, dropped, holds⟩ :
          wp (Mem.addHtableValue (fuel + 2) granted l.address key value) _ m :=
        wp_addHtableValue room memory (reach key)
      simp only [turn, request, added, Mem.serve]
      refine wp_bind ⟨error, m₁, ran, wp_pure ⟨l₁, lost, rfl, rfl, rfl, place, ?_, holds⟩⟩
      rw [← dropped, List.length_map]
    | get key =>
      obtain ⟨p, m₁, ran, result, copy, got, returned, holds⟩ :
          wp (Mem.getHtableValue (fuel + 2) l.address key) _ m :=
        wp_getHtableValue room memory (reach key)
      simp only [turn, request, got, Mem.serve]
      cases result with
      | none =>
        obtain ⟨rfl, rfl⟩ := returned
        exact wp_bind ⟨0, m₁, ran, wp_pure ⟨l, [], rfl, rfl, rfl, rfl, rfl, holds⟩⟩
      | some value =>
        obtain ⟨live, rfl⟩ := returned
        refine wp_bind ⟨p, m₁, ran, ?_⟩
        dsimp only
        rw [if_neg live]
        have member : (p, Cell.string value) ∈ l.blocks granted ++ ([(p, .string value)] ++ frame) :=
          List.mem_append_right _ List.mem_cons_self
        exact wp_bind (wp_loadString holds.holds member (wp_pure
          ⟨l, [(p, .string value)], rfl, rfl, rfl, rfl, rfl, holds⟩))

/-! A run of the server. -/

theorem turn_within {t : Htable} {a : Alloc} {fuel bound : Nat} {payload : List UInt8}
    {turned : Turn} (within : t.Within bound) (positive : 0 < t.size)
    (done : turn fuel t payload a = .done turned) :
    turned.table.Within (bound + 1) ∧ turned.table.size = t.size := by
  have wider : t.Within (bound + 1) := fun index => Nat.le_succ_of_le (within index)
  unfold turn at done
  cases request : receiveRequest payload with
  | none => simp [request] at done
  | some kind =>
    cases kind with
    | alive =>
      simp only [request, Outcome.done.injEq] at done
      subst done
      exact ⟨wider, rfl⟩
    | dump =>
      simp only [request] at done
      obtain ⟨⟨content, a'⟩, _, dumped⟩ := Outcome.bind_eq_done_iff.mp done
      cases content with
      | none =>
        cases dumped
        exact ⟨wider, rfl⟩
      | some list =>
        obtain ⟨sent, _, same⟩ := Outcome.bind_eq_done_iff.mp dumped
        cases same
        exact ⟨wider, rfl⟩
    | write key value =>
      obtain ⟨rest, added | failed⟩ := addHtableValue_cases t key value a
      · simp only [request, added, Outcome.done.injEq] at done
        subst done
        exact ⟨within.put positive key value, t.size_put key value⟩
      · simp only [request, failed, Outcome.done.injEq] at done
        subst done
        exact ⟨wider, rfl⟩
    | get key =>
      simp only [request] at done
      rcases got : getHtableValue t key a with ⟨_ | value, a'⟩
      · simp only [got, Outcome.done.injEq] at done
        subst done
        exact ⟨wider, rfl⟩
      · simp only [got, Outcome.done.injEq] at done
        subst done
        exact ⟨wider, rfl⟩

def ServedAlike (granted : Nat) (address : Ptr) (frame : List (Ptr × Cell)) (run : ServerRun)
    (replies : List (List (List UInt8))) (m' : Ram) : Prop :=
  ∃ (l' : Layout) (lost : List (Ptr × Cell)), replies = run.replies ∧ m'.supply = run.supply ∧
    l'.table = run.table ∧ l'.address = address ∧ lost.length = run.lost ∧
    l'.Holds granted (lost ++ frame) m'

theorem receiveLoop_refines (payloads : List (List UInt8)) {fuel bound : Nat} (room : 24 ≤ granted)
    (memory : l.Holds granted frame m) (within : l.table.Within bound)
    (enough : l.table.size * (bound + payloads.length) < fuel) :
    match turns (fuel + 2) payloads l.table m.supply with
    | .done run => wp (Mem.receiveLoop (fuel + 2) granted l.address payloads)
        (ServedAlike granted l.address frame run) m
    | .fault => Mem.receiveLoop (fuel + 2) granted l.address payloads m = .fault
    | .outOfFuel => False := by
  induction payloads generalizing l m frame bound with
  | nil => exact wp_pure ⟨l, [], rfl, rfl, rfl, rfl, rfl, memory⟩
  | cons payload payloads ih =>
    have positive : 0 < l.table.size := by
      rw [l.size_table]
      exact memory.positive
    have now : l.table.size * bound < fuel :=
      Nat.lt_of_le_of_lt (Nat.mul_le_mul_left _ (Nat.le_add_right ..)) enough
    have step := serve_refines payload room memory within now
    simp only [turns]
    cases done : turn (fuel + 2) l.table payload m.supply with
    | done turned =>
      rw [done] at step
      obtain ⟨kept, size⟩ := turn_within within positive done
      have more : turned.table.size * (bound + 1 + payloads.length) < fuel := by
        rwa [size, Nat.add_right_comm, Nat.add_assoc]
      simp only [Outcome.bind]
      cases ran : turns (fuel + 2) payloads turned.table turned.supply with
      | done run =>
        refine wp_bind (wp_mono step ?_)
        rintro sent m₁ ⟨l₁, lost₁, rfl, supply₁, table₁, place₁, count₁, holds₁⟩
        have later := ih holds₁ (table₁ ▸ kept) (table₁ ▸ more)
        rw [table₁, supply₁, ran, place₁] at later
        refine wp_bind (wp_mono later ?_)
        rintro replies m₂ ⟨l₂, lost₂, rfl, supply₂, table₂, place₂, count₂, positive₂, holds₂⟩
        refine wp_pure ⟨l₂, lost₁ ++ lost₂, rfl, supply₂, table₂, place₂, ?_, positive₂,
          holds₂.perm (by grind)⟩
        rw [List.length_append, count₁, count₂]
      | fault =>
        refine bind_eq_of_wp (wp_mono step ?_)
        rintro sent m₁ ⟨l₁, lost₁, rfl, supply₁, table₁, place₁, count₁, holds₁⟩
        have later := ih holds₁ (table₁ ▸ kept) (table₁ ▸ more)
        rw [table₁, supply₁, ran, place₁] at later
        exact fault_bind later
      | outOfFuel =>
        obtain ⟨_, m₁, _, l₁, lost₁, _, supply₁, table₁, place₁, count₁, holds₁⟩ := step
        have later := ih holds₁ (table₁ ▸ kept) (table₁ ▸ more)
        rwa [table₁, supply₁, ran] at later
    | fault =>
      rw [done] at step
      exact fault_bind step
    | outOfFuel => rwa [done] at step

theorem Layout.length_blocks (granted : Nat) (l : Layout) :
    (l.blocks granted).length = 2 + 3 * l.table.content.length := by
  have chain (links : List Link) : (chainBlocks granted links).length = 3 * links.length := by
    induction links with
    | nil => rfl
    | cons link links ih =>
      rw [chainBlocks_cons, List.length_append, ih, List.length_cons, Link.blocks]
      simp only [List.length_cons, List.length_nil]
      omega
  have all (chains : List (List Link)) : (chains.flatMap (chainBlocks granted)).length =
      3 * (chains.flatMap fun links => links.map Link.entry).length := by
    induction chains with
    | nil => rfl
    | cons links chains ih =>
      rw [List.flatMap_cons, List.flatMap_cons, List.length_append, List.length_append, ih, chain,
        List.length_map]
      omega
  rw [Layout.blocks, List.length_cons, List.length_cons, all, l.length_content]
  omega

/-- In any run of the server, whatever it receives and whichever allocations fail, the
replies are those of the table on lists, memory is misused only where that run faults, and
the blocks that are live are the table's, three for each of its pairs, and those counted as
lost: each value sent and each list dumped among them. -/
theorem server_memory_accounted (granted : Nat) (room : 24 ≤ granted) (payloads : List (List UInt8))
    (fuel : Nat) (enough : htableSize * payloads.length < fuel) (m : Ram)
    (frame : List (Ptr × Cell)) (holds : m.heap.Holds frame) (t : Htable) (a : Alloc)
    (constructed : constructHtable htableSize m.supply = (some t, a)) :
    match turns (fuel + 2) payloads t a with
    | .done run => wp (Mem.main (fuel + 2) granted payloads) (fun replies m' =>
        ∃ live : List (Ptr × Cell), replies = some run.replies ∧
          live.length = 2 + 3 * run.table.content.length + run.lost ∧
          m'.heap.Holds (live ++ frame)) m
    | .fault => Mem.main (fuel + 2) granted payloads m = .fault
    | .outOfFuel => False := by
  have some : 0 < htableSize := by decide
  obtain ⟨table, m₁, built, result, same, new⟩ := wp_constructHtable granted some holds
  rw [constructed] at same
  cases same
  obtain ⟨l, rfl, rfl, memory⟩ := new
  have empty := constructHtable_empty constructed
  have short : l.table.Within 0 := empty ▸ Htable.within_empty htableSize
  have reach : l.table.size * (0 + payloads.length) < fuel := by
    rwa [Nat.zero_add, empty, Htable.size_empty]
  have run := receiveLoop_refines payloads room memory short reach
  have live := memory.address_ne_null
  cases ran : turns (fuel + 2) payloads l.table m₁.supply with
  | done last =>
    rw [ran] at run
    refine wp_bind ⟨l.address, m₁, built, ?_⟩
    dsimp only
    rw [if_neg live]
    refine wp_bind (wp_mono run ?_)
    rintro replies m₂ ⟨l₂, lost, rfl, _, table, _, count, _, holds₂⟩
    refine wp_pure ⟨l₂.blocks granted ++ lost, rfl, ?_, holds₂.perm (by grind)⟩
    rw [List.length_append, l₂.length_blocks, table, count]
  | fault =>
    rw [ran] at run
    refine bind_eq_of_wp ⟨l.address, m₁, built, ?_⟩
    dsimp only
    rw [if_neg live]
    exact fault_bind run
  | outOfFuel => rwa [ran] at run

/-- A pair is stored and read: the three blocks of the pair, the table's two, and the value
that was sent are live. -/
theorem server_memory_accounted_read :
    ∃ m' live, Mem.main 515 24 [putMessage (.ofMemory [97]) (.ofMemory [49]),
        getMessage (.ofMemory [97])] ⟨Heap.empty, []⟩ = .done (some [[[]], [[49]]], m') ∧
      m'.heap.Holds live ∧ live.length = 2 + 3 * 1 + 1 := by
  -- the run is kept folded until its turns are known
  obtain ⟨payloads, same⟩ : ∃ payloads, payloads = [putMessage (.ofMemory [97]) (.ofMemory [49]),
      getMessage (.ofMemory [97])] := ⟨_, rfl⟩
  rw [← same]
  have built : constructHtable htableSize [] = (some (Htable.empty htableSize), []) := rfl
  have enough : htableSize * payloads.length < 513 := by
    rw [same]
    simp [htableSize]
  have ran : ∃ run, turns (513 + 2) payloads (Htable.empty htableSize) [] = .done run ∧
      run.replies = [[[]], [[49]]] ∧ run.table.content.length = 1 ∧ run.lost = 1 := by
    have written : receiveRequest (putMessage (.ofMemory [97]) (.ofMemory [49])) =
        some (.write (.ofMemory [97]) (.ofMemory [49])) := by decide +kernel
    have read : receiveRequest (getMessage (.ofMemory [97])) = some (.get (.ofMemory [97])) := by
      decide +kernel
    have found : ((Htable.empty htableSize).put (.ofMemory [97]) (.ofMemory [49])).lookup
        (.ofMemory [97]) = some (.ofMemory [49]) :=
      Htable.lookup_put_self (by simp [htableSize]) _ _
    have nothing : (Htable.empty htableSize).addLost (.ofMemory [97]) [] = [] := by
      simp [Htable.addLost, lostCopy]
    subst same
    simp only [turns, turn, written, read, addHtableValue_nil, getHtableValue_nil, found, nothing,
      Outcome.bind]
    refine ⟨_, rfl, rfl, ?_, rfl⟩
    dsimp only
    decide +kernel
  have whole := server_memory_accounted 24 (by decide) payloads 513 enough ⟨Heap.empty, []⟩ []
    Heap.holds_empty _ _ built
  obtain ⟨run, ran, replied, stored, lost⟩ := ran
  rw [ran] at whole
  obtain ⟨replies, m', ended, live, rfl, count, holds⟩ := whole
  rw [stored, lost] at count
  rw [List.append_nil] at holds
  rw [replied] at ended
  exact ⟨m', live, ended, holds, count⟩
end PpsDht
