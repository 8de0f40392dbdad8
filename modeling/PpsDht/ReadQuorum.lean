import PpsDht.VoteCounter

/-! `network_get` against exact counting of what the replies carry. The replies are cut to
the longest value before they are tallied, in a hash table with a one-character counter for
every string, so the count is exact while no string is longer, none is a proper prefix of an
earlier one in its bucket and no counter passes 128. Only the replies up to the one that
completes a quorum matter. -/
namespace PpsDht

open CLib Loop

/-- The string that a datagram of a contacted server carries; a lone NUL carries none. -/
def carried (servers : NodeList) : Option Datagram → Option CString
  | none => none
  | some datagram =>
    if datagram.peer ∈ servers.map Node.addr ∧ datagram.payload ≠ [0] then
      some (CString.ofMemory datagram.payload)
    else none

/-- What the reply loop is meant to do: stop at the first reply whose string has been read
in `R` replies, counting each string exactly. -/
def quorumReplies (read : Option Datagram → Option CString) (R : Nat) :
    Nat → List CString → Inbox → ErrorCode × Option CString × Inbox
  | 0, _, inbox => (.network, none, inbox)
  | _ + 1, _, [] => (.network, none, [])
  | rounds + 1, seen, outcome :: inbox =>
    match read outcome with
    | none => quorumReplies read R rounds seen inbox
    | some value =>
      if R ≤ seen.count value + 1 then (.none, some value, inbox)
      else quorumReplies read R rounds (value :: seen) inbox

/-- The strings up to the first one that completes `R` equal ones. -/
def upToQuorum (R : Nat) : List CString → List CString → List CString
  | _, [] => []
  | seen, value :: later =>
    value :: if R ≤ seen.count value + 1 then [] else upToQuorum R (value :: seen) later

theorem prefix_upToQuorum (R : Nat) (seen strings : List CString) :
    upToQuorum R seen strings <+: strings := by
  induction strings generalizing seen with
  | nil => exact List.nil_prefix
  | cons value later ih =>
    rw [upToQuorum, List.cons_prefix_cons]
    refine ⟨rfl, ?_⟩
    split
    · exact List.nil_prefix
    · exact ih _

theorem count_cons_lt {R : Nat} {seen : List CString} {value : CString}
    (before : ∀ v, seen.count v < R) (missed : ¬ R ≤ seen.count value + 1) (v : CString) :
    (value :: seen).count v < R := by
  by_cases same : value = v
  · subst same
    rw [List.count_cons_self]
    omega
  · rw [List.count_cons_of_ne same]
    exact before v

theorem quorumReplies_cases (read : Option Datagram → Option CString) (R rounds : Nat)
    (seen : List CString) (inbox : Inbox) (before : ∀ v, seen.count v < R) :
    (∃ v rest, quorumReplies read R rounds seen inbox = (.none, some v, rest) ∧
        R ≤ seen.count v + ((inbox.take rounds).filterMap read).count v) ∨
      quorumReplies read R rounds seen inbox = (.network, none, inbox.drop rounds) ∧
        ∀ v, seen.count v + ((inbox.take rounds).filterMap read).count v < R := by
  induction rounds generalizing seen inbox with
  | zero => exact .inr ⟨rfl, by simpa using before⟩
  | succ rounds ih =>
    cases inbox with
    | nil => exact .inr ⟨rfl, by simpa using before⟩
    | cons outcome inbox =>
      cases counted : read outcome with
      | none => simpa [quorumReplies, counted] using ih seen inbox before
      | some value =>
        by_cases reached : R ≤ seen.count value + 1
        · refine .inl ⟨value, inbox, by simp [quorumReplies, counted, reached], ?_⟩
          simp only [List.take_succ_cons, List.filterMap_cons, counted, List.count_cons_self]
          omega
        · have moved (v : CString) : (value :: seen).count v +
                ((inbox.take rounds).filterMap read).count v =
              seen.count v + ((value :: (inbox.take rounds).filterMap read).count v) := by
            by_cases same : value = v
            · subst same
              simp only [List.count_cons_self]
              omega
            · simp only [List.count_cons_of_ne same]
          have rest := ih (value :: seen) inbox (count_cons_lt before reached)
          simpa only [quorumReplies, counted, reached, ↓reduceIte, List.take_succ_cons,
            List.drop_succ_cons, List.filterMap_cons, moved] using rest

/-! What the code reads is what a reply carries, cut to the longest value. -/

/-- What `receive_message` leaves of a string. -/
def cutString (s : CString) : CString := CString.ofMemory (s.bytes.take maxMsgElemSize)

theorem cutString_eq_self_iff (s : CString) : cutString s = s ↔ s.strlen ≤ maxMsgElemSize := by
  constructor
  · intro same
    rw [← same, cutString, CString.strlen, CString.bytes_ofMemory]
    exact (List.takeWhile_prefix _).length_le.trans (List.length_take_le _ _)
  · intro fits
    rw [cutString, List.take_of_length_le fits, CString.ofMemory_bytes]

theorem vote_eq_cut (servers : NodeList) (outcome : Option Datagram) :
    vote servers outcome = (carried servers outcome).map cutString := by
  cases outcome with
  | none => rfl
  | some datagram =>
    have lone : datagram.payload.take maxMsgElemSize = [0] ↔ datagram.payload = [0] := by
      rcases datagram.payload with _ | ⟨byte, _ | ⟨next, rest⟩⟩ <;> simp [maxMsgElemSize]
    have cut : CString.ofMemory (datagram.payload.take maxMsgElemSize) =
        cutString (CString.ofMemory datagram.payload) := by
      apply CString.ext
      rw [cutString, CString.bytes_ofMemory, CString.bytes_ofMemory, CString.bytes_ofMemory,
        List.take_takeWhile, List.takeWhile_takeWhile]
      simp only [and_self, Bool.decide_eq_true]
    by_cases known : datagram.peer ∈ servers.map Node.addr
    · by_cases single : datagram.payload = [0]
      · simp [vote, accepted, carried, known, single, maxMsgElemSize]
      · simp only [vote, accepted, carried, known, single, lone, ↓reduceIte, Option.bind_some,
          ne_eq, not_false_eq_true, and_self, Option.map_some, cut]
    · simp [vote, accepted, carried, known]

/-! The tally table. -/

/-- The table counts exactly the replies `seen`. -/
structure Tallied (size : Nat) (table : Htable) (seen : List CString) : Prop where
  size : table.size = size
  placed : table.Placed
  keys : table.KeysIn {v | v ∈ seen}
  counts : ∀ v, table.binding v = stored (seen.count v)

/-- The later string is no proper prefix of the earlier one in its bucket. -/
def NotBelow (size : Nat) (earlier later : CString) : Prop :=
  later < earlier → hashFunction later size ≠ hashFunction earlier size

instance (size : Nat) (earlier later : CString) : Decidable (NotBelow size earlier later) :=
  inferInstanceAs (Decidable (_ → _))

theorem tallied_empty (size : Nat) : Tallied size (Htable.empty size) [] where
  size := Htable.size_empty size
  placed := Htable.placed_empty size
  keys := Htable.keysIn_empty size _
  counts v := by simp [stored]

theorem Tallied.unshadowed {size : Nat} {table : Htable} {seen : List CString}
    (tallied : Tallied size table seen) {v : CString} (clear : ∀ u ∈ seen, NotBelow size u v) :
    table.Unshadowed v :=
  Htable.unshadowed_of_keysIn tallied.placed tallied.keys (tallied.size ▸ clear)

theorem Tallied.put {size : Nat} {table : Htable} {seen : List CString}
    (tallied : Tallied size table seen) (positive : 0 < size) {v : CString}
    (clear : ∀ u ∈ seen, NotBelow size u v) :
    Tallied size (table.put v (counter (UInt64.ofNat (seen.count v + 1)))) (v :: seen) := by
  have positive' : 0 < table.size := tallied.size ▸ positive
  refine ⟨by rw [Htable.size_put, tallied.size], tallied.placed.put positive' _ _, ?_, fun u => ?_⟩
  · intro index e inside
    rcases Htable.mem_bucket_put positive' inside with ⟨same, _⟩ | ⟨old, member, same⟩
    · exact same ▸ List.mem_cons_self
    · exact List.mem_cons_of_mem _ (same ▸ tallied.keys index old member)
  · rw [Htable.binding_put positive' (tallied.unshadowed clear)]
    by_cases same : u = v
    · subst same
      simp [stored]
    · rw [if_neg same, tallied.counts, List.count_cons_of_ne (Ne.symm same)]

/-- One counted reply, given the counter found. The test is that of a threshold of at
most 129. -/
theorem incrementAndTest_stored {table : Htable} {v : CString} {R : UInt64} {count : Nat}
    (found : table.lookup v = stored count) (one : 1 ≤ R.toNat) (small : R.toNat ≤ 2 ^ 48)
    (bounded : count ≤ 128) :
    incrementAndTest table v R [] = (decide (min R.toNat 129 ≤ count + 1),
      table.put v (counter (UInt64.ofNat (count + 1))), []) := by
  have threshold : decide (R ≤ nextCount count) = decide (min R.toNat 129 ≤ count + 1) := by
    rw [decide_eq_decide, UInt64.le_iff_toNat_le, toNat_nextCount]
    split <;> omega
  rw [incrementAndTest_counted found one, threshold]

theorem Tallied.lookup {size : Nat} {table : Htable} {seen : List CString}
    (tallied : Tallied size table seen) {v : CString} (clear : ∀ u ∈ seen, NotBelow size u v) :
    table.lookup v = stored (seen.count v) := by
  rw [Htable.lookup_eq_binding (tallied.unshadowed clear), tallied.counts]

/-- While no reply is a proper prefix of an earlier one in its bucket, the loop counts
exactly, up to a threshold of 129. -/
theorem getLoop_eq_quorumReplies {size : Nat} (positive : 0 < size) (servers : NodeList)
    {R : UInt64} (one : 1 ≤ R.toNat) (small : R.toNat ≤ 2 ^ 48) (rounds : Nat) (table : Htable)
    (seen : List CString) (inbox : Inbox) (tallied : Tallied size table seen)
    (before : ∀ v, seen.count v < min R.toNat 129)
    (apart : (upToQuorum (min R.toNat 129) seen
      ((inbox.take rounds).filterMap (vote servers))).Pairwise (NotBelow size))
    (clear : ∀ v ∈ upToQuorum (min R.toNat 129) seen ((inbox.take rounds).filterMap (vote servers)),
      ∀ u ∈ seen, NotBelow size u v) :
    getLoop servers R rounds table inbox [] =
      quorumReplies (vote servers) (min R.toNat 129) rounds seen inbox := by
  induction rounds generalizing table seen inbox with
  | zero => rfl
  | succ rounds ih =>
    cases inbox with
    | nil => rw [getLoop_nil]; rfl
    | cons outcome inbox =>
      rw [getLoop_cons, quorumReplies]
      rw [List.take_succ_cons] at apart clear
      cases counted : vote servers outcome with
      | none =>
        rw [List.filterMap_cons_none counted] at apart clear
        exact ih table seen inbox tallied before apart clear
      | some value =>
        rw [List.filterMap_cons_some counted, upToQuorum] at apart clear
        obtain ⟨first, later⟩ := List.pairwise_cons.mp apart
        have now := clear value List.mem_cons_self
        have below := before value
        have tested := incrementAndTest_stored (tallied.lookup now) one small (by omega)
        have next := tallied.put positive now
        by_cases reached : min R.toNat 129 ≤ seen.count value + 1
        · simp only [tested, reached, decide_true, ↓reduceIte]
        · simp only [tested, reached, decide_false, ↓reduceIte]
          rw [if_neg reached] at first later clear
          refine ih _ (value :: seen) inbox next (count_cons_lt before reached) later ?_
          intro v member u old
          cases List.mem_cons.mp old with
          | inl same => exact same ▸ first v member
          | inr old => exact clear v (List.mem_cons_of_mem _ member) u old

structure TalliesExactly (size R : Nat) (strings : List CString) : Prop where
  whole : ∀ v ∈ strings, v.strlen ≤ maxMsgElemSize
  apart : strings.Pairwise (NotBelow size)
  few : R ≤ 129 ∨ ∀ v ∈ strings, strings.count v ≤ 128

/-- Of replies that are short and few enough, those the code reads are those that are
carried, and both thresholds are reached at the same one. -/
theorem quorumReplies_carried (servers : NodeList) (R rounds : Nat) (seen : List CString)
    (inbox : Inbox)
    (whole : ∀ v ∈ upToQuorum R seen ((inbox.take rounds).filterMap (carried servers)),
      v.strlen ≤ maxMsgElemSize)
    (few : R ≤ 129 ∨ ∀ v ∈ upToQuorum R seen ((inbox.take rounds).filterMap (carried servers)),
      seen.count v + (upToQuorum R seen
        ((inbox.take rounds).filterMap (carried servers))).count v ≤ 128) :
    quorumReplies (vote servers) (min R 129) rounds seen inbox =
        quorumReplies (carried servers) R rounds seen inbox ∧
      upToQuorum (min R 129) seen ((inbox.take rounds).filterMap (vote servers)) =
        upToQuorum R seen ((inbox.take rounds).filterMap (carried servers)) := by
  induction rounds generalizing seen inbox with
  | zero => exact ⟨rfl, rfl⟩
  | succ rounds ih =>
    cases inbox with
    | nil => exact ⟨rfl, rfl⟩
    | cons outcome inbox =>
      have read := vote_eq_cut servers outcome
      rw [List.take_succ_cons] at whole few
      cases counted : carried servers outcome with
      | none =>
        rw [counted, Option.map_none] at read
        rw [List.filterMap_cons_none counted] at whole few
        simpa only [quorumReplies, read, counted, List.take_succ_cons,
          List.filterMap_cons_none read, List.filterMap_cons_none counted] using
          ih seen inbox whole few
      | some value =>
        rw [List.filterMap_cons_some counted, upToQuorum] at whole few
        have uncut := (cutString_eq_self_iff value).mpr (whole value List.mem_cons_self)
        rw [counted, Option.map_some, uncut] at read
        have threshold : min R 129 ≤ seen.count value + 1 ↔ R ≤ seen.count value + 1 := by
          rcases few with small | bounded
          · rw [Nat.min_eq_left small]
          · have least := bounded value List.mem_cons_self
            rw [List.count_cons_self] at least
            omega
        simp only [quorumReplies, read, counted, List.take_succ_cons,
          List.filterMap_cons_some read, List.filterMap_cons_some counted, upToQuorum, threshold]
        by_cases reached : R ≤ seen.count value + 1
        · simp only [reached, ↓reduceIte, and_self]
        · rw [if_neg reached] at whole few
          have rest := ih (value :: seen) inbox
            (fun v member => whole v (List.mem_cons_of_mem _ member))
            (few.imp_right fun bounded v member => ?_)
          · simp only [reached, ↓reduceIte, rest, and_self]
          · have least := bounded v (List.mem_cons_of_mem _ member)
            by_cases same : value = v
            · subst same
              rw [List.count_cons_self] at least ⊢
              omega
            · rwa [List.count_cons_of_ne same] at least ⊢

/-! Where the count goes wrong. -/

def repliesFrom (servers : NodeList) (values : List CString) : Inbox :=
  List.zipWith (fun server value => some ⟨server.addr, value.bytes⟩) servers values

theorem accepted_reply {servers : NodeList} {server : Node} (member : server ∈ servers)
    (value : CString) : accepted servers (some ⟨server.addr, value.bytes⟩) =
      some (server.addr, value.bytes.take maxMsgElemSize) := by
  have known : server.addr ∈ servers.map Node.addr := List.mem_map_of_mem member
  simp only [accepted, known, ↓reduceIte]

theorem carried_reply {servers : NodeList} {server : Node} (member : server ∈ servers)
    (value : CString) : carried servers (some ⟨server.addr, value.bytes⟩) = some value := by
  have known : server.addr ∈ servers.map Node.addr := List.mem_map_of_mem member
  have counted : value.bytes ≠ [0] := fun lone => value.nulFree (lone ▸ List.mem_singleton_self 0)
  simp only [carried, known, counted, ne_eq, not_false_eq_true, and_self, ↓reduceIte,
    CString.ofMemory_bytes]

theorem vote_reply {servers : NodeList} {server : Node} (member : server ∈ servers)
    {value : CString} (fits : value.strlen ≤ maxMsgElemSize) :
    vote servers (some ⟨server.addr, value.bytes⟩) = some value := by
  rw [vote_eq_cut, carried_reply member, Option.map_some, (cutString_eq_self_iff value).mpr fits]

theorem filterMap_carried_repliesFrom {servers : NodeList} (part : NodeList) (values : List CString)
    (within : ∀ server ∈ part, server ∈ servers) (enough : values.length ≤ part.length) :
    (repliesFrom part values).filterMap (carried servers) = values := by
  induction values generalizing part with
  | nil => simp [repliesFrom]
  | cons value values ih =>
    cases part with
    | nil => simp at enough
    | cons server part =>
      have here := carried_reply (within server List.mem_cons_self) value
      have rest := ih part (fun s member => within s (List.mem_cons_of_mem _ member))
        (by simpa using enough)
      simp only [repliesFrom, List.zipWith_cons_cons, List.filterMap_cons, here]
      exact congrArg (value :: ·) rest

/-- Every contacted server is the source of at most one datagram. -/
def OneEach (servers : NodeList) (inbox : Inbox) : Prop :=
  ((inbox.filterMap (accepted servers)).map Prod.fst).Nodup

theorem oneEach_repliesFrom {servers : NodeList} (part : NodeList) (values : List CString)
    (within : ∀ server ∈ part, server ∈ servers) (nodup : (part.map Node.addr).Nodup) :
    OneEach servers (repliesFrom part values) := by
  suffices sub : (((repliesFrom part values).filterMap (accepted servers)).map Prod.fst).Sublist
      (part.map Node.addr) from nodup.sublist sub
  induction values generalizing part with
  | nil => simp [repliesFrom]
  | cons value values ih =>
    cases part with
    | nil => simp [repliesFrom]
    | cons server part =>
      have here := accepted_reply (within server List.mem_cons_self) value
      have rest := ih part (fun s member => within s (List.mem_cons_of_mem _ member))
        (List.nodup_cons.mp nodup).2
      simp only [repliesFrom, List.zipWith_cons_cons, List.filterMap_cons, here, List.map_cons]
      exact rest.cons_cons _

/-- Behind a longer string with its hash, a shorter one adds to the longer one's counter. -/
theorem getLoop_shadowed {servers : NodeList} {R : UInt64} {short long : CString}
    (below : short < long) (fits : short.strlen ≤ maxMsgElemSize) (small : R.toNat ≤ 129)
    (more : Nat) (part : NodeList) (within : ∀ server ∈ part, server ∈ servers)
    (enough : more ≤ part.length) (rounds : Nat) (room : more ≤ rounds) (table : Htable)
    (positive : 0 < table.size) (count : Nat) (some : 1 ≤ count) (before : count < R.toNat)
    (chain : table.bucket (hashFunction short table.size) =
      [⟨long, counter (UInt64.ofNat count)⟩]) (reaches : R.toNat ≤ count + more) :
    ∃ rest, getLoop servers R rounds table (repliesFrom part (List.replicate more short)) [] =
      (.none, .some short, rest) := by
  induction more generalizing part rounds table count with
  | zero => omega
  | succ more ih =>
    cases part with
    | nil => simp at enough
    | cons server part =>
      obtain ⟨rounds, rfl⟩ : ∃ k, rounds = k + 1 := ⟨rounds - 1, by omega⟩
      have here := vote_reply (within server List.mem_cons_self) fits
      have found : table.lookup short = stored count := by
        rw [Htable.lookup, chain]
        simp [Chain.lookup, below.le, stored, Nat.ne_of_gt some]
      have one : 1 ≤ R.toNat := by omega
      have far : R.toNat ≤ 2 ^ 48 := by omega
      have tested := incrementAndTest_stored found one far (by omega)
      rw [List.replicate_succ, repliesFrom, List.zipWith_cons_cons, getLoop_cons, here]
      by_cases reached : min R.toNat 129 ≤ count + 1
      · refine ⟨repliesFrom part (List.replicate more short), ?_⟩
        simp only [tested, reached, decide_true, repliesFrom]
      · simp only [tested, reached, decide_false]
        refine ih part (fun s member => within s (List.mem_cons_of_mem _ member))
          (by simpa using enough) rounds (by omega) _ ?_ (count + 1) (by omega) (by omega) ?_ (by omega)
        · rwa [Htable.size_put]
        · rw [Htable.size_put, Htable.bucket_put table positive, if_pos rfl, chain,
            Chain.put_cons_hit _ _ _ _ below.le]

theorem getLoop_first_shadowed {servers : NodeList} {R : UInt64} {short long : CString}
    (below : short < long) (same : hashFunction short servers.length =
      hashFunction long servers.length) (fits : long.strlen ≤ maxMsgElemSize)
    (two : 2 ≤ R.toNat) (small : R.toNat ≤ 129) (enough : R.toNat ≤ servers.length) :
    ∃ rest, getLoop servers R servers.length (Htable.empty servers.length)
      (repliesFrom servers (long :: List.replicate (R.toNat - 1) short)) [] =
        (.none, some short, rest) := by
  have shortFits : short.strlen ≤ maxMsgElemSize :=
    (CString.le_def.mp below.le).length_le.trans fits
  cases servers with
  | nil =>
    rw [List.length_nil] at enough
    omega
  | cons server part =>
    set table := Htable.empty (server :: part).length with table_eq
    have size : table.size = (server :: part).length := Htable.size_empty _
    have length : (server :: part).length = part.length + 1 := List.length_cons
    have within : ∀ s ∈ part, s ∈ server :: part := fun s => List.mem_cons_of_mem _
    have positive : 0 < table.size := by
      rw [size]
      omega
    have found : table.lookup long = stored 0 := by
      simp [table_eq, Htable.lookup, Chain.lookup, stored]
    have one : 1 ≤ R.toNat := by omega
    have far : R.toNat ≤ 2 ^ 48 := by omega
    have tested := incrementAndTest_stored found one far (Nat.zero_le _)
    have chain : (table.put long (counter (UInt64.ofNat (0 + 1)))).bucket
        (hashFunction short table.size) = [⟨long, counter (UInt64.ofNat 1)⟩] := by
      rw [← size] at same
      rw [Htable.bucket_put _ positive, if_pos same, table_eq, Htable.bucket_empty,
        Chain.put_of_miss _ _ _ (by simp)]
    have notYet : ¬ min R.toNat 129 ≤ 0 + 1 := by omega
    rw [repliesFrom, List.zipWith_cons_cons, length, getLoop_cons,
      vote_reply List.mem_cons_self fits]
    simp only [tested, notYet, decide_false]
    apply getLoop_shadowed below shortFits small (R.toNat - 1) part within
    case enough => omega
    case room => omega
    case positive => rwa [Htable.size_put]
    case count => exact 1
    case some => exact Nat.le_refl 1
    case before => omega
    case chain => rwa [Htable.size_put]
    case reaches => omega

/-- The strings that the replies of a call carry, in order. -/
def repliesOf (servers : NodeList) (inbox : Inbox) : List CString :=
  (inbox.take servers.length).filterMap (carried servers)

/-- The strings up to the reply that completes a quorum, if one does. -/
def processed (servers : NodeList) (R : Nat) (inbox : Inbox) : List CString :=
  upToQuorum R [] (repliesOf servers inbox)

theorem repliesOf_repliesFrom {servers : NodeList} (values : List CString)
    (enough : values.length ≤ servers.length) : repliesOf servers (repliesFrom servers values) = values := by
  have within : (repliesFrom servers values).length ≤ servers.length := by
    rw [repliesFrom, List.length_zipWith]
    exact Nat.min_le_left _ _
  rw [repliesOf, List.take_of_length_le within]
  exact filterMap_carried_repliesFrom servers values (fun _ member => member) enough

theorem votes_eq_cut (servers : NodeList) (inbox : Inbox) :
    votes servers inbox = (repliesOf servers inbox).map cutString := by
  rw [votes, repliesOf, List.map_filterMap]
  exact congrArg₂ List.filterMap (funext (vote_eq_cut servers)) rfl

/-! The loop from its start. -/

theorem getLoop_of_pairwise {servers : NodeList} {R : UInt64} (positive : 0 < servers.length)
    (one : 1 ≤ R.toNat) (small : R.toNat ≤ 2 ^ 48) {inbox : Inbox}
    (apart : (upToQuorum (min R.toNat 129) [] (votes servers inbox)).Pairwise
      (NotBelow servers.length)) :
    getLoop servers R servers.length (Htable.empty servers.length) inbox [] =
      quorumReplies (vote servers) (min R.toNat 129) servers.length [] inbox := by
  refine getLoop_eq_quorumReplies positive servers one small _ _ _ _ (tallied_empty _) ?_
    apart (by simp)
  intro v
  rw [List.count_nil]
  omega

theorem getLoop_of_tallies {servers : NodeList} {R : UInt64} (positive : 0 < servers.length)
    (one : 1 ≤ R.toNat) (small : R.toNat ≤ 2 ^ 48) {inbox : Inbox}
    (tallies : TalliesExactly servers.length R.toNat (processed servers R.toNat inbox)) :
    getLoop servers R servers.length (Htable.empty servers.length) inbox [] =
      quorumReplies (carried servers) R.toNat servers.length [] inbox := by
  obtain ⟨whole, apart, few⟩ := tallies
  obtain ⟨same, read⟩ := quorumReplies_carried servers R.toNat servers.length [] inbox
    whole (few.imp_right fun bounded v member => by
      rw [List.count_nil, Nat.zero_add]
      exact bounded v member)
  rw [← same]
  refine getLoop_of_pairwise positive one small ?_
  rw [votes, read]
  exact apart

/-- What exact counting with a threshold makes of a call's replies. -/
theorem quorumReplies_start (read : Option Datagram → Option CString) (rounds : Nat) {R : Nat}
    (one : 1 ≤ R) (inbox : Inbox) :
    (∃ v rest, quorumReplies read R rounds [] inbox = (.none, some v, rest) ∧
        R ≤ ((inbox.take rounds).filterMap read).count v) ∨
      quorumReplies read R rounds [] inbox = (.network, none, inbox.drop rounds) ∧
        ∀ v, ((inbox.take rounds).filterMap read).count v < R := by
  have start (v : CString) : ([] : List CString).count v < R := by
    rw [List.count_nil]
    omega
  simpa using quorumReplies_cases read R rounds [] inbox start

section Call

variable {sha1 : List UInt8 → Digest} {client : Client} {key : CString} {fuel : Nat} {env : Env}
  {servers : NodeList}

/-- The call returns what exact counting of the strings carried gives. -/
def ReadsQuorum (sha1 : List UInt8 → Digest) (client : Client) (key : CString) (fuel : Nat)
    (env : Env) (servers : NodeList) (inbox : Inbox) : Prop :=
  let result := quorumReplies (carried servers) client.args.R.toNat servers.length [] inbox
  ∃ sent, networkGet sha1 client key fuel env inbox =
    .done (result.1, result.2.1, sent, result.2.2)

theorem readsQuorum_iff (contacted : Contacted sha1 client client.args.R key fuel env servers)
    (inbox : Inbox) :
    ReadsQuorum sha1 client key fuel env servers inbox ↔
      getLoop servers client.args.R servers.length (Htable.empty servers.length) inbox [] =
        quorumReplies (carried servers) client.args.R.toNat servers.length [] inbox := by
  rw [ReadsQuorum, networkGet_contacted inbox contacted]
  simp only [Outcome.done.injEq, Prod.ext_iff]
  constructor
  · rintro ⟨_, error, value, _, rest⟩
    exact ⟨error, value, rest⟩
  · rintro ⟨error, value, rest⟩
    exact ⟨_, error, value, rfl, rest⟩

theorem Contacted.few (contacted : Contacted sha1 client client.args.R key fuel env servers) :
    client.args.R.toNat ≤ 2 ^ 48 :=
  contacted.enough.trans (length_le_of_nodup_addr contacted.nodup)

theorem Contacted.positive (contacted : Contacted sha1 client client.args.R key fuel env servers)
    (one : 1 ≤ client.args.R.toNat) : 0 < servers.length :=
  Nat.lt_of_lt_of_le one contacted.enough

theorem readsQuorum_of_tallies
    (contacted : Contacted sha1 client client.args.R key fuel env servers)
    (one : 1 ≤ client.args.R.toNat) {inbox : Inbox}
    (tallies : TalliesExactly servers.length client.args.R.toNat
      (processed servers client.args.R.toNat inbox)) :
    ReadsQuorum sha1 client key fuel env servers inbox :=
  (readsQuorum_iff contacted inbox).mpr
    (getLoop_of_tallies (contacted.positive one) one contacted.few tallies)

/-- A reply below an earlier one with its hash can complete a quorum of both together. -/
theorem shadowed_misread (contacted : Contacted sha1 client client.args.R key fuel env servers)
    (two : 2 ≤ client.args.R.toNat) (small : client.args.R.toNat ≤ 129) {short long : CString}
    (below : short < long) (same : hashFunction short servers.length =
      hashFunction long servers.length) (fits : long.strlen ≤ maxMsgElemSize) :
    ∃ inbox, OneEach servers inbox ∧ (∀ v ∈ repliesOf servers inbox, v = short ∨ v = long) ∧
      ¬ ReadsQuorum sha1 client key fuel env servers inbox := by
  set R := client.args.R with R_eq
  set values := long :: List.replicate (R.toNat - 1) short with values_eq
  have count : values.length = R.toNat := by
    rw [values_eq, List.length_cons, List.length_replicate]
    omega
  have enough := contacted.enough
  have room : values.length ≤ servers.length := count ▸ enough
  have read := repliesOf_repliesFrom values room
  refine ⟨repliesFrom servers values, oneEach_repliesFrom servers values (fun _ m => m)
    contacted.nodup, ?_, ?_⟩
  · rw [read]
    intro v member
    cases List.mem_cons.mp member with
    | inl first => exact .inr first
    | inr later => exact .inl (List.eq_of_mem_replicate later)
  · obtain ⟨rest, run⟩ := getLoop_first_shadowed below same fits two small enough
    rw [readsQuorum_iff contacted, ← R_eq, run]
    intro agree
    have onlyLess : values.count short = R.toNat - 1 := by
      rw [values_eq, List.count_cons_of_ne below.ne', List.count_replicate_self]
    rw [repliesOf] at read
    rcases quorumReplies_start (carried servers) servers.length (R := R.toNat) (by omega)
      (repliesFrom servers values) with ⟨v, _, counted, reached⟩ | ⟨counted, _⟩
    · rw [counted] at agree
      simp only [Prod.mk.injEq, Option.some.injEq, true_and] at agree
      rw [read, ← agree.1, onlyLess] at reached
      omega
    · rw [counted] at agree
      simp at agree

/-- Equal replies complete a quorum that is not theirs: the string is returned without its
end, or 128 of them make the counter's sign complete any larger quorum. -/
theorem repeated_misread (contacted : Contacted sha1 client client.args.R key fuel env servers)
    (one : 1 ≤ client.args.R.toNat) (value : CString)
    (defect : maxMsgElemSize < value.strlen ∨ 129 < client.args.R.toNat) :
    ∃ inbox, OneEach servers inbox ∧ (∀ v ∈ repliesOf servers inbox, v = value) ∧
      ¬ ReadsQuorum sha1 client key fuel env servers inbox := by
  set R := client.args.R.toNat with R_eq
  set values := List.replicate (min R 129) value with values_eq
  have enough : R ≤ servers.length := contacted.enough
  have room : values.length ≤ servers.length := by
    rw [values_eq, List.length_replicate]
    omega
  have read := repliesOf_repliesFrom values room
  have voted : votes servers (repliesFrom servers values) =
      List.replicate (min R 129) (cutString value) := by
    rw [votes_eq_cut, read, values_eq, List.map_replicate]
  refine ⟨_, oneEach_repliesFrom servers values (fun _ m => m) contacted.nodup, ?_, ?_⟩
  · rw [read]
    exact fun v member => List.eq_of_mem_replicate member
  · have apart : (upToQuorum (min R 129) [] (votes servers (repliesFrom servers values))).Pairwise
        (NotBelow servers.length) := by
      rw [voted]
      exact (List.pairwise_replicate.mpr (.inr fun below => absurd below (lt_irrefl _))).sublist
        (prefix_upToQuorum _ _ _).sublist
    rw [readsQuorum_iff contacted, getLoop_of_pairwise (contacted.positive one) one contacted.few apart,
      ← R_eq]
    intro agree
    have most (u : CString) : values.count u ≤ min R 129 :=
      List.count_le_length.trans (by rw [values_eq, List.length_replicate])
    rw [votes] at voted
    rw [repliesOf] at read
    rcases quorumReplies_start (vote servers) servers.length (R := min R 129) (by omega)
      (repliesFrom servers values) with ⟨u, _, low, counted⟩ | ⟨_, few⟩
    · rcases quorumReplies_start (carried servers) servers.length (R := R) one
        (repliesFrom servers values) with ⟨v, _, high, reached⟩ | ⟨high, _⟩
      · rw [low, high] at agree
        simp only [Prod.mk.injEq, Option.some.injEq, true_and] at agree
        rw [read] at reached
        rw [voted] at counted
        have small : R ≤ 129 := by
          have bound := most v
          omega
        have whole : v = value := by
          by_contra other
          rw [values_eq, List.count_replicate, if_neg (by simpa using Ne.symm other)] at reached
          omega
        have cut : u = cutString value := by
          by_contra other
          rw [List.count_replicate, if_neg (by simpa using Ne.symm other)] at counted
          omega
        have fits := (cutString_eq_self_iff value).mp (by rw [← cut, agree.1, whole])
        omega
      · rw [low, high] at agree
        simp at agree
    · have all := few (cutString value)
      rw [voted, List.count_replicate_self] at all
      omega

/-- A read counts exactly while, up to the reply that completes a quorum, no string is longer
than a value can be, none is a proper prefix of an earlier one in its bucket, and none is
carried more than 128 times under a quorum above 129. For a set of reply strings, every
exchange over them is read right if and only if none of them is longer than a value can be
and one reply is enough, or no string is a proper prefix of another one of its bucket and
the quorum is at most 129 or there is no string at all. -/
theorem network_get_reads_quorum (contacted : Contacted sha1 client client.args.R key fuel env servers)
    (one : 1 ≤ client.args.R.toNat) :
    (∀ inbox, TalliesExactly servers.length client.args.R.toNat
        (processed servers client.args.R.toNat inbox) →
      ReadsQuorum sha1 client key fuel env servers inbox) ∧
    ∀ strings : Set CString,
      ((∀ inbox, OneEach servers inbox → (∀ v ∈ repliesOf servers inbox, v ∈ strings) →
          ReadsQuorum sha1 client key fuel env servers inbox) ↔
        (∀ v ∈ strings, v.strlen ≤ maxMsgElemSize) ∧
          (client.args.R.toNat = 1 ∨
            (∀ v ∈ strings, ∀ u ∈ strings, NotBelow servers.length u v) ∧
              (client.args.R.toNat ≤ 129 ∨ strings = ∅))) := by
  refine ⟨fun inbox tallies => readsQuorum_of_tallies contacted one tallies,
    fun strings => ⟨fun correct => ?_, ?_⟩⟩
  · have unharmed (v : CString) (member : v ∈ strings) :
        v.strlen ≤ maxMsgElemSize ∧ client.args.R.toNat ≤ 129 := by
      by_contra defect
      obtain ⟨inbox, each, within, wrong⟩ := repeated_misread contacted one v (by omega)
      exact wrong (correct inbox each fun w counted => within w counted ▸ member)
    refine ⟨fun v member => (unharmed v member).1, ?_⟩
    by_cases single : client.args.R.toNat = 1
    · exact .inl single
    refine .inr ⟨fun v member u other below same => ?_, ?_⟩
    · obtain ⟨fits, small⟩ := unharmed u other
      obtain ⟨inbox, each, within, wrong⟩ :=
        shadowed_misread contacted (by omega) small below same fits
      refine wrong (correct inbox each fun w counted => ?_)
      rcases within w counted with rfl | rfl
      · exact member
      · exact other
    · rcases Set.eq_empty_or_nonempty strings with none | ⟨v, member⟩
      · exact .inr none
      · exact .inl (unharmed v member).2
  · rintro ⟨fits, free⟩ inbox each within
    have heard (v : CString) (member : v ∈ processed servers client.args.R.toNat inbox) :
        v ∈ strings := within v ((prefix_upToQuorum _ _ _).subset member)
    refine readsQuorum_of_tallies contacted one ⟨fun v member => fits v (heard v member), ?_, ?_⟩
    · rcases free with single | ⟨apart, _⟩
      · rw [single, processed]
        cases repliesOf servers inbox <;> simp [upToQuorum]
      · exact List.pairwise_of_forall_mem_list fun u hu v hv => apart v (heard v hv) u (heard u hu)
    · rcases free with single | ⟨_, small | none⟩
      · exact .inl (by omega)
      · exact .inl small
      · exact .inr fun v member => absurd (heard v member) (by simp [none])

end Call

def trio : NodeList :=
  [⟨Digest.ofFirst 7, ⟨1, 0⟩, 0⟩, ⟨Digest.ofFirst 8, ⟨2, 0⟩, 0⟩, ⟨Digest.ofFirst 9, ⟨3, 0⟩, 0⟩]

def trioClient : Client := ⟨CString.empty, trio, ⟨3, 2, 2⟩⟩

theorem trio_contacted : Contacted (fun _ => Digest.ofFirst 7) trioClient 2 CString.empty 4
    ⟨true, [], []⟩ trio :=
  ⟨by decide, rfl, rfl, by decide, by decide, rfl⟩

/-- A third reply below the other ones comes too late to matter. -/
theorem network_get_reads_three :
    ReadsQuorum (fun _ => Digest.ofFirst 7) trioClient CString.empty 4 ⟨true, [], []⟩ trio
      [some ⟨⟨2, 0⟩, [97, 97]⟩, some ⟨⟨1, 0⟩, [97, 97]⟩, some ⟨⟨3, 0⟩, [97]⟩] :=
  (network_get_reads_quorum trio_contacted (by decide)).1 _ ⟨by decide, by decide, .inl (by decide)⟩

/-- The replies `ab` and `a` of two servers are taken for two replies `a`. -/
theorem network_get_misreads_pair :
    ¬ ∀ (sha1 : List UInt8 → Digest) (client : Client) (key : CString) (fuel : Nat) (env : Env)
        (servers : NodeList) (inbox : Inbox),
      Contacted sha1 client client.args.R key fuel env servers → 1 ≤ client.args.R.toNat →
      OneEach servers inbox → ReadsQuorum sha1 client key fuel env servers inbox := by
  intro correct
  have read := correct _ _ _ _ _ _ [some ⟨⟨1, 0⟩, [97, 98]⟩, some ⟨⟨2, 0⟩, [97]⟩]
    pair_contacted (by decide) (by unfold OneEach; decide)
  have agree := (readsQuorum_iff pair_contacted _).mp read
  revert agree
  decide +kernel

end PpsDht
