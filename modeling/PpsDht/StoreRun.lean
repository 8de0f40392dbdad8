import PpsDht.StoreConsistency

/-! The runs of the store. Every step keeps the invariant, so a run in which no server
handles an older write of a key after a newer one is consistent. -/
namespace PpsDht

open CLib Loop

/-- The last put of the key returned, has succeeded, and no other one is waiting. -/
structure Store.Settled (s : Store) (key value : CString) : Prop where
  last : lastPut key s.history = some (.none, value)
  alone : ∀ operation ∈ s.running.map Pending.operation, ∀ u, operation ≠ .put key u

structure Invariant (sha1 : List UInt8 → Digest) (client : Client) (s : Store) : Prop where
  traffic : Traffic s
  waiting : ∀ pending, s.running = some pending → Waiting sha1 client s pending
  held : ∀ key value, s.Settled key value →
    ∃ socket quorum, Holds sha1 client s key value socket quorum
  consistent : Consistent s.history

theorem lastPut_cons {key value : CString} {error : ErrorCode} {event : Event} {older : List Event}
    (last : lastPut key (event :: older) = some (error, value)) :
    event.operation = .put key value ∧ event.error = error ∨
      (∀ u, event.operation ≠ .put key u) ∧ lastPut key older = some (error, value) := by
  cases call : event.operation with
  | get k =>
    simp only [lastPut, call] at last
    exact .inr ⟨fun u => Operation.noConfusion, last⟩
  | put k v =>
    simp only [lastPut, call] at last
    by_cases same : k = key
    · rw [if_pos same, Option.some.injEq, Prod.mk.injEq] at last
      exact .inl ⟨by rw [same, last.2], last.1⟩
    · rw [if_neg same] at last
      exact .inr ⟨fun u written => same (Operation.put.inj written).1, last⟩

section Steps

variable {sha1 : List UInt8 → Digest} {client : Client} {keys : Set CString} {s s' : Store}
  {operation : Operation} {packet : Packet} {event : Event}

/-- The network loses a datagram, or the waiting call receives one or times out. -/
theorem Invariant.quiet (invariant : Invariant sha1 client s) (quiet : Quiet s s')
    (history : s'.history = s.history)
    (same : s'.running.map Pending.operation = s.running.map Pending.operation) :
    Invariant sha1 client s' where
  traffic := invariant.traffic.quiet quiet
  waiting := Waiting.quiet invariant.waiting quiet
  held key value settled := by
    obtain ⟨socket, quorum, holds⟩ :=
      invariant.held key value ⟨history ▸ settled.last, same ▸ settled.alone⟩
    exact ⟨socket, quorum, holds.quiet quiet⟩
  consistent := history ▸ invariant.consistent

theorem Invariant.delivered (invariant : Invariant sha1 client s)
    (flying : packet ∈ s.requests) (orderly : Orderly keys s packet) :
    Invariant sha1 client (s.delivered packet) where
  traffic := invariant.traffic.delivered flying orderly
  waiting pending running := (invariant.waiting pending running).delivered invariant.traffic flying
  held key value settled := by
    obtain ⟨socket, quorum, holds⟩ := invariant.held key value ⟨settled.last, settled.alone⟩
    exact ⟨socket, quorum, holds.delivered invariant.waiting invariant.traffic flying orderly⟩
  consistent := invariant.consistent

/-- A call fails before it waits, having sent its request to some servers or to none. -/
theorem Invariant.failed (invariant : Invariant sha1 client s)
    (idle : s.running = none) (idle' : s'.running = none)
    (history : s'.history = event :: s.history) (error : event.error ≠ .none)
    (traffic : Traffic s')
    (keeps : ∀ key value socket quorum, (∀ u, event.operation ≠ .put key u) →
      Holds sha1 client s key value socket quorum → Holds sha1 client s' key value socket quorum) :
    Invariant sha1 client s' where
  traffic := traffic
  waiting pending running := by simp [idle'] at running
  held key value settled := by
    have last := settled.last
    rw [history] at last
    cases lastPut_cons last with
    | inl mine => exact absurd mine.2 error
    | inr other =>
      obtain ⟨socket, quorum, holds⟩ := invariant.held key value ⟨other.2, by simp [idle]⟩
      exact ⟨socket, quorum, keeps key value socket quorum other.1 holds⟩
  consistent := by
    rw [history]
    exact ⟨invariant.consistent, fun key value _ succeeded => absurd succeeded error⟩

theorem quiet_stopped (s : Store) (history : List Event) :
    Quiet s { s with running := none, history := history } where
  tables := rfl
  handled := rfl
  sockets := rfl
  requests := List.Subset.refl _
  replies := List.Subset.refl _
  running pending running := by simp at running

theorem Invariant.refused (invariant : Invariant sha1 client s) (idle : s.running = none)
    (error : event.error ≠ .none) :
    Invariant sha1 client { s with history := event :: s.history } := by
  have quiet := quiet_stopped s (event :: s.history)
  rw [← idle] at quiet
  exact invariant.failed idle idle rfl error (invariant.traffic.quiet quiet)
    fun _ _ _ _ _ holds => holds.quiet quiet

theorem sends_to (s : Store) (operation : Operation) (reached : NodeList) (running : Option Pending)
    (history : List Event) :
    Sends s { s with
      sockets := s.sockets + 1
      requests := s.requests ++ reached.map fun server => ⟨s.sockets, server.addr, operation⟩
      running := running
      history := history } operation where
  tables := rfl
  handled := rfl
  sockets := rfl
  requests packet flying := by
    cases List.mem_append.mp flying with
    | inl old => exact .inl old
    | inr new =>
      obtain ⟨server, _, rfl⟩ := List.mem_map.mp new
      exact .inr ⟨rfl, rfl⟩
  replies := rfl

theorem Invariant.sent (invariant : Invariant sha1 client s) (idle : s.running = none)
    (allowed : operation.Allowed) {servers reached : NodeList}
    (ring : RingReturns sha1 client.server client.args.N.toNat operation.key servers)
    (front : reached <+: servers) :
    Invariant sha1 client { s with
      sockets := s.sockets + 1
      requests := s.requests ++ reached.map fun server => ⟨s.sockets, server.addr, operation⟩
      running := some ⟨s.sockets, operation, servers, []⟩ } := by
  have sends := sends_to s operation reached (some ⟨s.sockets, operation, servers, []⟩) s.history
  have noReply (reply : Reply) (member : reply ∈ s.replies) : reply.socket ≠ s.sockets :=
    (invariant.traffic.freshReplies reply member).ne
  constructor
  case traffic => exact invariant.traffic.sends sends allowed
  case waiting =>
    intro pending running
    obtain rfl := Option.some.inj running
    constructor
    case newest => rfl
    case ring => exact ring
    case sameCall =>
      intro packet sent same
      cases sends.sent sent with
      | inl old => exact absurd same (invariant.traffic.fresh packet old).ne
      | inr new => exact new.2
    case once =>
      have noRequest : s.requests.filter (fun packet => packet.socket = s.sockets) = [] :=
        List.filter_eq_nil_iff.mpr fun packet member same =>
          (invariant.traffic.fresh packet (.inl member)).ne (of_decide_eq_true same)
      have silent : s.replies.filter (fun reply => reply.socket = s.sockets) = [] :=
        List.filter_eq_nil_iff.mpr fun reply member same =>
          noReply reply member (of_decide_eq_true same)
      have distinct := ring.nodup.sublist (front.sublist.map Node.addr)
      simpa [Store.involved, Store.asked, Store.answering, noRequest, silent, List.filter_append,
        List.filter_map, Function.comp_def] using distinct
    case shows =>
      intro answer given
      cases given with
      | inl flying => exact absurd rfl (noReply _ flying)
      | inr received => simp at received
  case held =>
    intro key value settled
    obtain ⟨socket, quorum, holds⟩ := invariant.held key value ⟨settled.last, by simp [idle]⟩
    refine ⟨socket, quorum, holds.sends sends (settled.alone operation rfl) ?_⟩
    intro pending running answer given
    obtain rfl := Option.some.inj running
    cases given with
    | inl flying => exact noReply _ flying rfl
    | inr received => simp at received
  case consistent => exact invariant.consistent

theorem Invariant.called (invariant : Invariant sha1 client s) (idle : s.running = none)
    (allowed : operation.Allowed) {servers : NodeList}
    (ring : RingReturns sha1 client.server client.args.N.toNat operation.key servers)
    (outcomes : List Bool) :
    Invariant sha1 client (startCall client s operation servers outcomes) := by
  obtain ⟨reached, front, sent⟩ := sendMessages_sent operation.message servers outcomes
  simp only [startCall, sent, List.map_map, Function.comp_def]
  split
  · exact invariant.refused idle (by simp)
  split
  · exact invariant.sent idle allowed ring front
  · rename_i error
    have sends := sends_to s operation reached none
      (⟨operation, (sendMessages operation.message servers outcomes).1, none⟩ :: s.history)
    rw [← idle] at sends
    refine invariant.failed idle idle rfl error (invariant.traffic.sends sends allowed) ?_
    intro key value socket quorum apart holds
    exact holds.sends sends apart fun pending running => by simp [idle] at running

@[simp] theorem Pending.result_operation (args : Args) (pending : Pending) :
    (pending.result args).operation = pending.operation := by
  cases call : pending.operation <;> simp [Pending.result, call]

theorem Invariant.finished {pending : Pending} (invariant : Invariant sha1 client s)
    (quorums : Quorums client.args) (running : s.running = some pending)
    (exact : pending.ReadsExactly client.args) :
    Invariant sha1 client
      { s with running := none, history := pending.result client.args :: s.history } := by
  have quiet := quiet_stopped s (pending.result client.args :: s.history)
  have waiting := invariant.waiting pending running
  have alone {key : CString} (apart : ∀ u, pending.operation ≠ .put key u) :
      ∀ operation ∈ s.running.map Pending.operation, ∀ u, operation ≠ .put key u := by
    rw [running]
    intro operation mine
    exact Option.some.inj mine ▸ apart
  constructor
  case traffic => exact invariant.traffic.quiet quiet
  case waiting => simp
  case held =>
    intro key value settled
    cases lastPut_cons settled.last with
    | inl mine =>
      rw [Pending.result_operation] at mine
      exact ⟨_, _, (waiting.put_holds running invariant.traffic quorums.writeSome mine.1
        mine.2).quiet quiet⟩
    | inr other =>
      rw [Pending.result_operation] at other
      obtain ⟨socket, quorum, holds⟩ := invariant.held key value ⟨other.2, alone other.1⟩
      exact ⟨socket, quorum, holds.quiet quiet⟩
  case consistent =>
    refine ⟨invariant.consistent, fun key value read succeeded last => ?_⟩
    rw [Pending.result_operation] at read
    have apart (u : CString) : pending.operation ≠ .put key u := by simp [read]
    obtain ⟨socket, quorum, holds⟩ := invariant.held key value ⟨last, alone apart⟩
    exact waiting.get_value running holds quorums read exact succeeded

theorem quiet_lost {requests : List Packet} {replies : List Reply}
    (left : requests.Sublist s.requests) (left' : replies.Sublist s.replies) :
    Quiet s { s with requests := requests, replies := replies } where
  tables := rfl
  handled := rfl
  sockets := rfl
  requests := left.subset
  replies := left'.subset
  running pending running := by
    refine ⟨pending, pending.inbox, running, rfl, fun answer given => ?_, ?_⟩
    · exact given.imp_left fun flying => left'.subset flying
    · have asked := (left.filter fun packet => packet.socket = pending.socket).map Packet.server
      have answering := (left'.filter fun reply => reply.socket = pending.socket).map Reply.server
      exact ((asked.append answering).append_right _).subperm

theorem quiet_timedOut {pending : Pending} (running : s.running = some pending) :
    Quiet s { s with running := some { pending with inbox := pending.inbox ++ [none] } } where
  tables := rfl
  handled := rfl
  sockets := rfl
  requests := List.Subset.refl _
  replies := List.Subset.refl _
  running pending' running' := by
    obtain rfl := Option.some.inj running'
    refine ⟨pending, _, running, rfl, fun answer given => ?_, ?_⟩
    · exact given.imp_right fun received => by simpa using received
    · simp [Store.involved, Store.asked, Store.answering, List.reduceOption_append,
        List.Subperm.refl]

theorem quiet_received {pending : Pending} {reply : Reply} (running : s.running = some pending)
    (flying : reply ∈ s.replies) (mine : reply.socket = pending.socket) :
    Quiet s { s with
      replies := s.replies.erase reply
      running := some { pending with
        inbox := pending.inbox ++ [some ⟨reply.server, reply.payload⟩] } } where
  tables := rfl
  handled := rfl
  sockets := rfl
  requests := List.Subset.refl _
  replies := List.erase_subset
  running pending' running' := by
    obtain rfl := Option.some.inj running'
    refine ⟨pending, _, running, rfl, fun answer given => ?_, ?_⟩
    · cases given with
      | inl left => exact .inl (List.mem_of_mem_erase left)
      | inr received =>
        cases List.mem_append.mp received with
        | inl old => exact .inr old
        | inr new =>
          obtain rfl := Option.some.inj (List.mem_singleton.mp new)
          exact .inl (mine ▸ flying)
    · -- the answer moves from the network to the inbox
      have split := ((List.perm_cons_erase flying).filter
        fun reply => reply.socket = pending.socket).map Reply.server
      simp only [mine, decide_true, List.filter_cons_of_pos, List.map_cons] at split
      have moved := (List.perm_append_singleton reply.server _).trans
        (split.symm.append_right (pending.inbox.reduceOption.map Datagram.peer))
      apply List.Perm.subperm
      simpa [Store.involved, Store.asked, Store.answering, List.reduceOption_append] using
        moved.append_left (s.asked pending.socket)

theorem Invariant.next {action : Action} (invariant : Invariant sha1 client s)
    (quorums : Quorums client.args) (step : next sha1 client s action = some s')
    (allowed : ∀ operation ∈ action.operation, operation.Allowed) (ordered : Ordered s'.handled)
    (apart : KeysApart keys s'.handled) (known : ∀ key, IsWritten s'.handled key → key ∈ keys)
    (tallies : ∀ pending ∈ s.ended action, pending.ReadsExactly client.args) :
    Invariant sha1 client s' := by
  cases action with
  | call operation fuel sends =>
    obtain ⟨idle, servers, ring, rfl⟩ := next_call step
    exact invariant.called idle (allowed operation rfl) ring sends
  | refuse operation error =>
    obtain ⟨idle, wrong, rfl⟩ := next_refuse step
    exact invariant.refused idle wrong
  | deliver packet =>
    obtain ⟨flying, handled⟩ := next_deliver step
    obtain rfl := handle_eq (invariant.traffic.allowed packet (.inl flying)) handled
    have orderly : Orderly keys s packet := {
      inOrder := (List.pairwise_cons.mp ordered).1
      apart := (List.pairwise_cons.mp apart).1
      known := fun key value put => known key ⟨packet, List.mem_cons_self, value, put⟩
      before := fun older done key value put =>
        known key ⟨older, List.mem_cons_of_mem _ done, value, put⟩ }
    exact invariant.delivered flying orderly
  | loseRequest packet =>
    obtain rfl := Option.some.inj step
    exact invariant.quiet (quiet_lost List.erase_sublist (List.Sublist.refl _)) rfl rfl
  | loseReply reply =>
    obtain rfl := Option.some.inj step
    exact invariant.quiet (quiet_lost (List.Sublist.refl _) List.erase_sublist) rfl rfl
  | receive reply =>
    obtain ⟨pending, running, flying, mine, rfl⟩ := next_receive step
    exact invariant.quiet (quiet_received running flying mine) rfl (by rw [running]; rfl)
  | timeout =>
    obtain ⟨pending, running, rfl⟩ := next_timeout step
    exact invariant.quiet (quiet_timedOut running) rfl (by rw [running]; rfl)
  | finish =>
    obtain ⟨pending, running, rfl⟩ := next_finish step
    exact invariant.finished quorums running (tallies pending (by simp [Store.ended, running]))

end Steps

section Run

variable {sha1 : List UInt8 → Digest} {client : Client} {keys : Set CString} {s s' : Store}

theorem Invariant.run {actions : List Action} (invariant : Invariant sha1 client s)
    (quorums : Quorums client.args) (run : runActions sha1 client s actions = some s')
    (allowed : ∀ action ∈ actions, ∀ operation ∈ action.operation, operation.Allowed)
    (ordered : Ordered s'.handled) (apart : KeysApart keys s'.handled)
    (known : ∀ key, IsWritten s'.handled key → key ∈ keys)
    (tallies : ∀ pending ∈ endedCalls sha1 client s actions, pending.ReadsExactly client.args) :
    Invariant sha1 client s' := by
  induction actions generalizing s with
  | nil =>
    obtain rfl := Option.some.inj run
    exact invariant
  | cons action rest ih =>
    obtain ⟨middle, step, later⟩ := Option.bind_eq_some_iff.mp run
    have ended : endedCalls sha1 client s (action :: rest) =
        s.ended action ++ endedCalls sha1 client middle rest := by simp [endedCalls, step]
    rw [ended] at tallies
    -- what holds of the whole log holds of the part handled by then
    have part := runActions_handled later
    have kept : Invariant sha1 client middle := by
      apply invariant.next quorums step (allowed action List.mem_cons_self)
        (ordered.sublist part.sublist) (apart.sublist part.sublist)
      · exact fun key ⟨packet, done, put⟩ => known key ⟨packet, part.subset done, put⟩
      · exact fun pending member => tallies pending (List.mem_append_left _ member)
    exact ih kept later (fun action member => allowed action (List.mem_cons_of_mem _ member))
      fun pending member => tallies pending (List.mem_append_right _ member)

end Run

end PpsDht
