import PpsDht.Network
import PpsDht.Lib.Budget

/-! A call with and without the datagrams of others. The reply loops refuse what no
contacted server has sent, but every datagram refused uses up one of their rounds. -/
namespace PpsDht

open CLib Loop

/-- A call before its reply loop: it has ended, or it waits for servers to answer. -/
inductive Started (σ : Type) where
  | ended (error : ErrorCode) (sent : List Datagram)
  | waiting (servers : NodeList) (state : σ) (sent : List Datagram)

def getStart (sha1 : List UInt8 → Digest) (client : Client) (key : CString) (fuel : Nat)
    (env : Env) : Outcome (Started (Htable × Alloc)) :=
  if maxMsgElemSize < key.strlen then .done (.ended .badParameter [])
  else if env.socket = false then .done (.ended .network [])
  else
    match malloc env.alloc with
    | (false, _) => .done (.ended .nomem [])
    | (true, a) =>
      match constructHtable client.args.N.toNat a with
      | (none, _) => .done (.ended .nomem [])
      | (some table, a) =>
        (ringGetNodesForKey sha1 client.server client.args.N.toNat key fuel a).bind fun
          | (none, _) => .fault
          | (some servers, a) =>
            if servers.length < client.args.R.toNat then .done (.ended .badParameter [])
            else
              match sendMessages (getMessage key) servers env.sends with
              | (.none, sent) => .done (.waiting servers (table, a) sent)
              | (error, sent) => .done (.ended error sent)

def putStart (sha1 : List UInt8 → Digest) (client : Client) (key value : CString) (fuel : Nat)
    (env : Env) : Outcome (Started Unit) :=
  if maxMsgElemSize < key.strlen ∨ maxMsgElemSize < value.strlen then
    .done (.ended .badParameter [])
  else if env.socket = false then .done (.ended .network [])
  else
    (ringGetNodesForKey sha1 client.server client.args.N.toNat key fuel env.alloc).bind fun
      | (none, _) => .fault
      | (some servers, _) =>
        if servers.length < client.args.W.toNat then .done (.ended .badParameter [])
        else
          match sendMessages (putMessage key value) servers env.sends with
          | (.none, sent) => .done (.waiting servers () sent)
          | (error, sent) => .done (.ended error sent)

theorem networkGet_eq (sha1 : List UInt8 → Digest) (client : Client) (key : CString) (fuel : Nat)
    (env : Env) (inbox : Inbox) :
    networkGet sha1 client key fuel env inbox = (getStart sha1 client key fuel env).bind fun
      | .ended error sent => .done (error, none, sent, inbox)
      | .waiting servers (table, a) sent =>
        match getLoop servers client.args.R servers.length table inbox a with
        | (error, value, rest) => .done (error, value, sent, rest) := by
  unfold networkGet getStart
  split
  · rfl
  split
  · rfl
  rcases malloc env.alloc with ⟨_ | _, a⟩
  · rfl
  dsimp only
  rcases constructHtable client.args.N.toNat a with ⟨_ | table, a⟩
  · rfl
  dsimp only
  cases ringGetNodesForKey sha1 client.server client.args.N.toNat key fuel a with
  | done found =>
    obtain ⟨_ | servers, left⟩ := found
    · rfl
    · simp only [Outcome.bind]
      split
      · rfl
      · rcases sendMessages (getMessage key) servers env.sends with ⟨error, sent⟩
        cases error <;> rfl
  | fault => rfl
  | outOfFuel => rfl

theorem networkPut_eq (sha1 : List UInt8 → Digest) (client : Client) (key value : CString)
    (fuel : Nat) (env : Env) (inbox : Inbox) :
    networkPut sha1 client key value fuel env inbox =
      (putStart sha1 client key value fuel env).bind fun
        | .ended error sent => .done (error, sent, inbox)
        | .waiting servers () sent =>
          match putLoop servers client.args.W servers.length 0 inbox with
          | (error, rest) => .done (error, sent, rest) := by
  unfold networkPut putStart
  split
  · rfl
  split
  · rfl
  cases ringGetNodesForKey sha1 client.server client.args.N.toNat key fuel env.alloc with
  | done found =>
    obtain ⟨_ | servers, left⟩ := found
    · rfl
    · simp only [Outcome.bind]
      split
      · rfl
      · rcases sendMessages (putMessage key value) servers env.sends with ⟨error, sent⟩
        cases error <;> rfl
  | fault => rfl
  | outOfFuel => rfl

def contacted {σ : Type} : Outcome (Started σ) → NodeList
  | .done (.waiting servers _ _) => servers
  | _ => []

def fromServer (servers : NodeList) (datagram : Datagram) : Bool :=
  decide (datagram.peer ∈ servers.map Node.addr)

/-- The datagrams of the contacted servers alone, in the same order. -/
def genuine (servers : NodeList) (traffic : List Datagram) : List Datagram :=
  traffic.filter (fromServer servers)

def putError (sha1 : List UInt8 → Digest) (client : Client) (key value : CString) (fuel : Nat)
    (env : Env) (traffic : List Datagram) : Outcome ErrorCode :=
  (networkPut sha1 client key value fuel env (traffic.map some)).bind fun (error, _) => .done error

def getAnswer (sha1 : List UInt8 → Digest) (client : Client) (key : CString) (fuel : Nat)
    (env : Env) (traffic : List Datagram) : Outcome (ErrorCode × Option CString) :=
  (networkGet sha1 client key fuel env (traffic.map some)).bind fun (error, value, _) =>
    .done (error, value)

/-! Both loops as loops with a budget. -/

def isAck (servers : NodeList) (datagram : Datagram) : Bool := (ack servers (some datagram)).isSome

/-- What `network_put` makes of a datagram: the writes counted, or enough of them. -/
def putFeed (servers : NodeList) (W : UInt64) (nbWrites : Nat) (datagram : Datagram) : Nat ⊕ Unit :=
  if isAck servers datagram then
    if W.toNat ≤ nbWrites + 1 then .inr () else .inl (nbWrites + 1)
  else .inl nbWrites

/-- What `network_get` makes of a datagram: the table of counters, or a value to return. -/
def getFeed (servers : NodeList) (R : UInt64) (s : Htable × Alloc) (datagram : Datagram) :
    (Htable × Alloc) ⊕ CString :=
  match vote servers (some datagram) with
  | none => .inl s
  | some value =>
    match incrementAndTest s.1 value R s.2 with
    | (true, _, _) => .inr value
    | (false, table, a) => .inl (table, a)

theorem accepted_foreign {servers : NodeList} {datagram : Datagram}
    (foreign : fromServer servers datagram = false) : accepted servers (some datagram) = none :=
  if_neg (of_decide_eq_false foreign)

theorem putFeed_foreign (servers : NodeList) (W : UInt64) (nbWrites : Nat) (datagram : Datagram)
    (foreign : fromServer servers datagram = false) :
    putFeed servers W nbWrites datagram = .inl nbWrites := by
  simp [putFeed, isAck, ack, accepted_foreign foreign]

theorem getFeed_foreign (servers : NodeList) (R : UInt64) (s : Htable × Alloc) (datagram : Datagram)
    (foreign : fromServer servers datagram = false) : getFeed servers R s datagram = .inl s := by
  simp [getFeed, vote, accepted_foreign foreign]

theorem putLoop_eq_run (servers : NodeList) (W : UInt64) (rounds nbWrites : Nat)
    (traffic : List Datagram) :
    (putLoop servers W rounds nbWrites (traffic.map some)).1 =
      match Budget.run (putFeed servers W) rounds nbWrites traffic with
      | some _ => .none
      | none => .network := by
  induction rounds generalizing nbWrites traffic with
  | zero => rfl
  | succ rounds ih =>
    cases traffic with
    | nil => simp [putLoop_nil, Budget.run]
    | cons datagram traffic =>
      rw [List.map_cons, putLoop_cons]
      cases acknowledged : ack servers (some datagram) with
      | none => simp [Budget.run, putFeed, isAck, acknowledged, ih]
      | some server =>
        by_cases enough : W.toNat ≤ nbWrites + 1
        · simp [Budget.run, putFeed, isAck, acknowledged, enough]
        · simp [Budget.run, putFeed, isAck, acknowledged, enough, ih]

theorem getLoop_eq_run (servers : NodeList) (R : UInt64) (rounds : Nat) (table : Htable) (a : Alloc)
    (traffic : List Datagram) :
    ((getLoop servers R rounds table (traffic.map some) a).1,
        (getLoop servers R rounds table (traffic.map some) a).2.1) =
      match Budget.run (getFeed servers R) rounds (table, a) traffic with
      | some value => (.none, some value)
      | none => (.network, none) := by
  induction rounds generalizing table a traffic with
  | zero => rfl
  | succ rounds ih =>
    cases traffic with
    | nil => simp [getLoop_nil, Budget.run]
    | cons datagram traffic =>
      rw [List.map_cons, getLoop_cons]
      cases counted : vote servers (some datagram) with
      | none => simp [Budget.run, getFeed, counted, ih]
      | some value =>
        rcases tested : incrementAndTest table value R a with ⟨_ | _, table', a'⟩
        · simp [Budget.run, getFeed, counted, tested, ih]
        · simp [Budget.run, getFeed, counted, tested]

/-! When the datagrams of others come too early. -/

/-- Datagram `k` is the acknowledgement that makes enough of them. -/
def PutCompletes (servers : NodeList) (W : UInt64) (datagrams : List Datagram) (k : Nat) : Prop :=
  (∃ datagram, datagrams[k]? = some datagram ∧ isAck servers datagram = true) ∧
    (datagrams.take k).countP (isAck servers) + 1 = max 1 W.toNat

/-- Datagram `k` is the reply at which `increment_and_test` first finds enough. -/
def GetCompletes (servers : NodeList) (R : UInt64) (s : Htable × Alloc)
    (datagrams : List Datagram) (k : Nat) : Prop :=
  ∃ value, Budget.first (getFeed servers R) s datagrams = some (k, value)

/-- A datagram of the contacted servers that completes the call within their first
`servers.length` is also among the first `servers.length` datagrams of all. -/
def InTime (servers : NodeList) (traffic : List Datagram)
    (completes : List Datagram → Nat → Prop) : Prop :=
  ∀ k < servers.length, completes (genuine servers traffic) k →
    k < (traffic.take servers.length).countP (fromServer servers)

theorem first_putFeed_iff (servers : NodeList) (W : UInt64) (nbWrites : Nat)
    (datagrams : List Datagram) (k : Nat) :
    Budget.first (putFeed servers W) nbWrites datagrams = some (k, ()) ↔
      (∃ datagram, datagrams[k]? = some datagram ∧ isAck servers datagram = true) ∧
        nbWrites + (datagrams.take k).countP (isAck servers) + 1 = max (nbWrites + 1) W.toNat := by
  induction datagrams generalizing nbWrites k with
  | nil => simp [Budget.first]
  | cons datagram rest ih =>
    by_cases acknowledged : isAck servers datagram = true
    · by_cases enough : W.toNat ≤ nbWrites + 1
      · have done : putFeed servers W nbWrites datagram = .inr () := by
          simp [putFeed, acknowledged, enough]
        rw [Budget.first_cons_done _ done]
        cases k with
        | zero => simp [acknowledged, enough]
        | succ k => simp [acknowledged, Nat.max_eq_left enough]
      · have next : putFeed servers W nbWrites datagram = .inl (nbWrites + 1) := by
          simp [putFeed, acknowledged, enough]
        have more : max (nbWrites + 1) W.toNat = max (nbWrites + 1 + 1) W.toNat := by omega
        cases k with
        | zero =>
          refine iff_of_false (Budget.first_ne_zero _ next rest ()) fun completes => ?_
          have := completes.2
          simp only [List.take_zero, List.countP_nil] at this
          omega
        | succ k =>
          rw [Budget.first_succ_iff _ next, ih, List.getElem?_cons_succ, List.take_succ_cons,
            List.countP_cons_of_pos acknowledged, more]
          refine and_congr_right fun _ => ?_
          omega
    · have next : putFeed servers W nbWrites datagram = .inl nbWrites := by
        simp [putFeed, acknowledged]
      cases k with
      | zero =>
        refine iff_of_false (Budget.first_ne_zero _ next rest ()) fun completes => ?_
        simpa [acknowledged] using completes.1
      | succ k =>
        rw [Budget.first_succ_iff _ next, ih, List.getElem?_cons_succ, List.take_succ_cons,
          List.countP_cons_of_neg acknowledged]

theorem putCompletes_iff (servers : NodeList) (W : UInt64) (datagrams : List Datagram) (k : Nat) :
    PutCompletes servers W datagrams k ↔
      Budget.first (putFeed servers W) 0 datagrams = some (k, ()) := by
  rw [first_putFeed_iff, PutCompletes, Nat.zero_add]

theorem putLoop_same_iff (servers : NodeList) (W : UInt64) (traffic : List Datagram) :
    (putLoop servers W servers.length 0 (traffic.map some)).1 =
        (putLoop servers W servers.length 0 ((genuine servers traffic).map some)).1 ↔
      InTime servers traffic (PutCompletes servers W) := by
  have budget := Budget.run_filter_eq_iff (putFeed servers W) (p := fromServer servers)
    (putFeed_foreign servers W) servers.length 0 traffic
  have errors (n : Nat) (first second : List Datagram) :
      (putLoop servers W n 0 (first.map some)).1 = (putLoop servers W n 0 (second.map some)).1 ↔
        Budget.run (putFeed servers W) n 0 first = Budget.run (putFeed servers W) n 0 second := by
    rw [putLoop_eq_run, putLoop_eq_run]
    cases Budget.run (putFeed servers W) n 0 first <;>
      cases Budget.run (putFeed servers W) n 0 second <;> simp
  rw [errors, genuine, budget]
  simp only [InTime, putCompletes_iff, genuine]
  exact ⟨fun timely k below completes => timely k () completes below,
    fun timely k _ completes below => timely k below completes⟩

theorem getLoop_same_iff (servers : NodeList) (R : UInt64) (table : Htable) (a : Alloc)
    (traffic : List Datagram) :
    ((getLoop servers R servers.length table (traffic.map some) a).1,
          (getLoop servers R servers.length table (traffic.map some) a).2.1) =
        ((getLoop servers R servers.length table ((genuine servers traffic).map some) a).1,
          (getLoop servers R servers.length table ((genuine servers traffic).map some) a).2.1) ↔
      InTime servers traffic (GetCompletes servers R (table, a)) := by
  have budget := Budget.run_filter_eq_iff (getFeed servers R) (p := fromServer servers)
    (getFeed_foreign servers R) servers.length (table, a) traffic
  have answers (first second : Option CString) :
      (match first with
        | some value => (ErrorCode.none, some value)
        | none => (.network, none)) =
      (match second with
        | some value => (ErrorCode.none, some value)
        | none => (.network, none)) ↔ first = second := by
    cases first <;> cases second <;> simp
  rw [getLoop_eq_run, getLoop_eq_run, answers, genuine, budget]
  simp only [InTime, GetCompletes, genuine]
  exact ⟨fun timely k below ⟨value, completes⟩ => timely k value completes below,
    fun timely k value completes below => timely k below ⟨value, completes⟩⟩

theorem putError_same_iff (sha1 : List UInt8 → Digest) (client : Client) (key value : CString)
    (fuel : Nat) (env : Env) (traffic : List Datagram) :
    putError sha1 client key value fuel env traffic =
        putError sha1 client key value fuel env
          (genuine (contacted (putStart sha1 client key value fuel env)) traffic) ↔
      ∀ servers sent, putStart sha1 client key value fuel env = .done (.waiting servers () sent) →
        InTime servers traffic (PutCompletes servers client.args.W) := by
  simp only [putError, networkPut_eq]
  cases putStart sha1 client key value fuel env with
  | done started =>
    cases started with
    | ended error sent => simp [Outcome.bind]
    | waiting servers state sent =>
      have same := putLoop_same_iff servers client.args.W traffic
      simp only [Outcome.bind, contacted, Outcome.done.injEq, same, Started.waiting.injEq]
      exact ⟨by rintro timely _ _ ⟨rfl, _, rfl⟩; exact timely,
        fun timely => timely servers sent ⟨rfl, trivial, rfl⟩⟩
  | fault => simp [Outcome.bind]
  | outOfFuel => simp [Outcome.bind]

theorem getAnswer_same_iff (sha1 : List UInt8 → Digest) (client : Client) (key : CString)
    (fuel : Nat) (env : Env) (traffic : List Datagram) :
    getAnswer sha1 client key fuel env traffic =
        getAnswer sha1 client key fuel env
          (genuine (contacted (getStart sha1 client key fuel env)) traffic) ↔
      ∀ servers s sent, getStart sha1 client key fuel env = .done (.waiting servers s sent) →
        InTime servers traffic (GetCompletes servers client.args.R s) := by
  simp only [getAnswer, networkGet_eq]
  cases getStart sha1 client key fuel env with
  | done started =>
    cases started with
    | ended error sent => simp [Outcome.bind]
    | waiting servers state sent =>
      obtain ⟨table, a⟩ := state
      have same := getLoop_same_iff servers client.args.R table a traffic
      simp only [Outcome.bind, contacted, Outcome.done.injEq, same, Started.waiting.injEq]
      exact ⟨by rintro timely _ _ _ ⟨rfl, rfl, rfl⟩; exact timely,
        fun timely => timely servers (table, a) sent ⟨rfl, rfl, rfl⟩⟩
  | fault => simp [Outcome.bind]
  | outOfFuel => simp [Outcome.bind]

/-- The datagrams of others leave both calls as they are exactly when a call that the
contacted servers complete is completed within the first datagrams of all, as many as
servers were contacted. -/
theorem foreign_traffic_iff (sha1 : List UInt8 → Digest) (client : Client) (key value : CString)
    (fuel : Nat) (env : Env) (traffic : List Datagram) :
    (putError sha1 client key value fuel env traffic =
        putError sha1 client key value fuel env
          (genuine (contacted (putStart sha1 client key value fuel env)) traffic) ↔
      ∀ servers sent, putStart sha1 client key value fuel env = .done (.waiting servers () sent) →
        InTime servers traffic (PutCompletes servers client.args.W)) ∧
    (getAnswer sha1 client key fuel env traffic =
        getAnswer sha1 client key fuel env
          (genuine (contacted (getStart sha1 client key fuel env)) traffic) ↔
      ∀ servers s sent, getStart sha1 client key fuel env = .done (.waiting servers s sent) →
        InTime servers traffic (GetCompletes servers client.args.R s)) :=
  ⟨putError_same_iff sha1 client key value fuel env traffic,
    getAnswer_same_iff sha1 client key fuel env traffic⟩

/-- One datagram of another host turns a put that both servers acknowledge into a failed one. -/
theorem foreign_datagram_fails_put :
    ¬ ∀ (sha1 : List UInt8 → Digest) (client : Client) (key value : CString) (fuel : Nat)
      (env : Env) (traffic : List Datagram),
      putError sha1 client key value fuel env traffic =
          putError sha1 client key value fuel env
            (genuine (contacted (putStart sha1 client key value fuel env)) traffic) ∧
        getAnswer sha1 client key fuel env traffic =
          getAnswer sha1 client key fuel env
            (genuine (contacted (getStart sha1 client key fuel env)) traffic) := by
  intro same
  have put := (same (fun _ => Digest.ofFirst 7) pairClient CString.empty CString.empty 3
    ⟨true, [], []⟩ [⟨⟨3, 0⟩, []⟩, ⟨⟨1, 0⟩, []⟩, ⟨⟨2, 0⟩, []⟩]).1
  revert put
  decide +kernel

end PpsDht
