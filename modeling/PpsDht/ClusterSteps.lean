import PpsDht.Cluster

/-! What a server makes of each kind of message, and what a call makes of what it
receives. -/
namespace PpsDht.Cluster

open CLib Loop

/-- The new table and the answers, by the message; a dump may be answered by anything. -/
inductive Served (t : Htable) : Message → Htable → List (List UInt8) → Prop
  | alive : Served t .alive t [[]]
  | dumped (payloads : List (List UInt8)) : Served t .dump t payloads
  | unnamed : Served t (.call (.get CString.empty)) t [[]]
  | listed (payloads : List (List UInt8)) :
      Served t (.call (.put CString.empty CString.empty)) t payloads
  | found {key value : CString} (here : t.lookup key = some value) :
      Served t (.call (.get key)) t [value.bytes]
  | missed (key : CString) : Served t (.call (.get key)) t []
  | written (key value : CString) : Served t (.call (.put key value)) (t.put key value) [[]]
  | refused (key value : CString) : Served t (.call (.put key value)) t []

theorem receiveRequest_dump : receiveRequest dumpNodeMessage = some .dump := by
  have lone := receiveRequest_putMessage (show CString.empty.strlen ≤ maxMsgElemSize by decide)
    (show CString.empty.strlen ≤ maxMsgElemSize by decide)
  rwa [if_pos ⟨rfl, rfl⟩] at lone

theorem serveGetRequest_cases (t : Htable) (key : CString) (a : Alloc) :
    serveGetRequest t key a = [] ∨
      ∃ value, t.lookup key = some value ∧ serveGetRequest t key a = [value.bytes] := by
  have found : findLoop key (t.bucket (hashFunction key t.size)) = t.lookup key := findLoop_eq ..
  cases here : t.lookup key with
  | none => exact .inl (by simp only [serveGetRequest, getHtableValue, found, here])
  | some value =>
    obtain ⟨rest, copied | failed⟩ := strdup_cases value a
    · exact .inr ⟨value, rfl, by simp only [serveGetRequest, getHtableValue, found, here, copied]⟩
    · exact .inl (by simp only [serveGetRequest, getHtableValue, found, here, failed])

theorem serveDumpNode_table {fuel : Nat} {t t' : Htable} {a : Alloc}
    {payloads : List (List UInt8)} (done : ((serveDumpNode fuel t a).bind
      fun (_, sent) => Outcome.done (t, sent)) = .done (t', payloads)) : t' = t := by
  obtain ⟨_, _, same⟩ := Outcome.bind_eq_done_iff.mp done
  exact (Prod.mk.inj (Outcome.done.inj same)).1.symm

theorem serve_getMessage {fuel : Nat} {t t' : Htable} {key : CString} {a : Alloc}
    {payloads : List (List UInt8)} (short : key.strlen ≤ maxMsgElemSize)
    (served : serve fuel t (getMessage key) a = .done (t', payloads)) :
    Served t (.call (.get key)) t' payloads := by
  have read := receiveRequest_getMessage short
  by_cases named : key = CString.empty
  · rw [if_pos named] at read
    simp only [serve, read] at served
    obtain ⟨rfl, rfl⟩ := Prod.mk.inj (Outcome.done.inj served)
    exact named ▸ .unnamed
  · rw [if_neg named] at read
    simp only [serve, read] at served
    obtain ⟨rfl, rfl⟩ := Prod.mk.inj (Outcome.done.inj served)
    rcases serveGetRequest_cases t key a with silent | ⟨value, here, same⟩
    · exact silent ▸ .missed key
    · exact same ▸ .found here

theorem serve_putMessage {fuel : Nat} {t t' : Htable} {key value : CString} {a : Alloc}
    {payloads : List (List UInt8)} (short : key.strlen ≤ maxMsgElemSize)
    (short' : value.strlen ≤ maxMsgElemSize)
    (served : serve fuel t (putMessage key value) a = .done (t', payloads)) :
    Served t (.call (.put key value)) t' payloads := by
  have read := receiveRequest_putMessage short short'
  by_cases named : key = CString.empty ∧ value = CString.empty
  · rw [if_pos named] at read
    obtain ⟨rfl, rfl⟩ := named
    simp only [serve, read] at served
    obtain rfl := serveDumpNode_table served
    exact .listed payloads
  · rw [if_neg named] at read
    by_cases room : key.strlen + value.strlen + 1 < maxMsgSize
    · rw [if_pos room] at read
      simp only [serve, read, serveWriteRequest] at served
      obtain ⟨rest, added | failed⟩ := addHtableValue_cases t key value a
      · rw [added] at served
        obtain ⟨rfl, rfl⟩ := Prod.mk.inj (Outcome.done.inj served)
        exact .written key value
      · rw [failed] at served
        obtain ⟨rfl, rfl⟩ := Prod.mk.inj (Outcome.done.inj served)
        exact .refused key value
    · rw [if_neg room] at read
      simp only [serve, read] at served
      contradiction

theorem serve_message {fuel : Nat} {t t' : Htable} {message : Message} {a : Alloc}
    {payloads : List (List UInt8)}
    (fits : ∀ operation, message = .call operation → operation.fits = true)
    (served : serve fuel t message.payload a = .done (t', payloads)) :
    Served t message t' payloads := by
  cases message with
  | alive =>
    obtain ⟨rfl, rfl⟩ := Prod.mk.inj (Outcome.done.inj served)
    exact .alive
  | dump =>
    rw [Message.payload, serve, receiveRequest_dump] at served
    obtain rfl := serveDumpNode_table served
    exact .dumped payloads
  | call operation =>
    have fits := fits operation rfl
    cases operation with
    | get key => exact serve_getMessage (of_decide_eq_true fits) served
    | put key value =>
      obtain ⟨short, short'⟩ := of_decide_eq_true fits
      exact serve_putMessage short short' served

/-! What a call has heard when it returns. -/

theorem getLoop_heard {servers : NodeList} {R : UInt64} {rounds : Nat} {table : Htable}
    {inbox : Inbox} {a : Alloc} (ok : (getLoop servers R rounds table inbox a).1 = .none) :
    ∃ outcome ∈ inbox, ∃ value, vote servers outcome = some value ∧
      (getLoop servers R rounds table inbox a).2.1 = some value := by
  induction rounds generalizing table inbox a with
  | zero => simp [getLoop] at ok
  | succ rounds ih =>
    cases inbox with
    | nil => simp [getLoop_nil] at ok
    | cons outcome inbox =>
      rw [getLoop_cons] at ok ⊢
      cases heard : vote servers outcome with
      | none =>
        simp only [heard] at ok ⊢
        obtain ⟨other, member, found⟩ := ih ok
        exact ⟨other, List.mem_cons_of_mem _ member, found⟩
      | some value =>
        simp only [heard] at ok ⊢
        rcases tested : incrementAndTest table value R a with ⟨_ | _, table', a'⟩
        · simp only [tested] at ok ⊢
          obtain ⟨other, member, found⟩ := ih ok
          exact ⟨other, List.mem_cons_of_mem _ member, found⟩
        · exact ⟨outcome, List.mem_cons_self, value, heard, rfl⟩

theorem putLoop_heard {servers : NodeList} {W : UInt64} {rounds nbWrites : Nat} {inbox : Inbox}
    (ok : (putLoop servers W rounds nbWrites inbox).1 = .none) :
    ∃ outcome ∈ inbox, ∃ server, ack servers outcome = some server := by
  induction rounds generalizing nbWrites inbox with
  | zero => simp [putLoop] at ok
  | succ rounds ih =>
    cases inbox with
    | nil => simp [putLoop_nil] at ok
    | cons outcome inbox =>
      rw [putLoop_cons] at ok
      cases heard : ack servers outcome with
      | none =>
        simp only [heard] at ok
        obtain ⟨other, member, found⟩ := ih ok
        exact ⟨other, List.mem_cons_of_mem _ member, found⟩
      | some server => exact ⟨outcome, List.mem_cons_self, server, heard⟩

def Heard (operation : Operation) (servers : List SockAddr) (inbox : Inbox)
    (value : Option CString) : Prop :=
  ∃ datagram, some datagram ∈ inbox ∧ datagram.peer ∈ servers ∧
    match operation with
    | .get _ => value = some (CString.ofMemory (datagram.payload.take maxMsgElemSize))
    | .put _ _ => datagram.payload = []

theorem heard_of_vote {servers : NodeList} {key value : CString} {inbox : Inbox}
    {outcome : Option Datagram} (member : outcome ∈ inbox)
    (voted : vote servers outcome = some value) :
    Heard (.get key) (servers.map Node.addr) inbox (some value) := by
  cases outcome with
  | none => simp [vote, accepted] at voted
  | some datagram =>
    by_cases known : datagram.peer ∈ servers.map Node.addr
    · simp only [vote, accepted, known, ↓reduceIte, Option.bind_some] at voted
      split at voted
      · contradiction
      · exact ⟨datagram, member, known, voted.symm⟩
    · simp [vote, accepted, known] at voted

theorem heard_of_ack {servers : NodeList} {key value : CString} {inbox : Inbox} {server : SockAddr}
    {outcome : Option Datagram} (member : outcome ∈ inbox)
    (acknowledged : ack servers outcome = some server) :
    Heard (.put key value) (servers.map Node.addr) inbox none := by
  obtain ⟨known, rfl⟩ := (ack_eq_some_iff servers outcome server).mp acknowledged
  exact ⟨_, member, known, rfl⟩

/-! What a call sends, whatever it receives afterwards. -/

theorem sendMessages_reached {message : List UInt8} {servers : NodeList} {outcomes : List Bool}
    {sent : List Datagram} (ok : sendMessages message servers outcomes = (.none, sent)) :
    sent = servers.map fun server => ⟨server.addr, message⟩ := by
  induction servers generalizing outcomes sent with
  | nil => exact (Prod.mk.inj ok).2.symm
  | cons server rest ih =>
    rw [sendMessages] at ok
    split at ok
    · obtain ⟨same, rfl⟩ := Prod.mk.inj ok
      exact congrArg _ (ih (Prod.ext same rfl))
    · simp at ok

/-- What is known of a call that has sent its request, in part or to all its servers. -/
structure Sent (operation : Operation) (sent : List Datagram)
    (result : Inbox → ErrorCode × Option CString) : Prop where
  fits : sent ≠ [] → operation.fits = true
  heard : ∀ inbox, (result inbox).1 = .none →
    Heard operation (sent.map Datagram.peer) inbox (result inbox).2

theorem sent_ended {operation : Operation} {sent : List Datagram} {error : ErrorCode}
    (fits : sent ≠ [] → operation.fits = true) (failed : error ≠ .none) :
    Sent operation sent fun _ => (error, none) :=
  ⟨fits, fun _ ok => absurd ok failed⟩

theorem map_peer (servers : NodeList) (message : List UInt8) :
    (servers.map fun server => (⟨server.addr, message⟩ : Datagram)).map Datagram.peer =
      servers.map Node.addr := by
  rw [List.map_map]
  rfl

def getResult (client : Client) : Started (Htable × Alloc) → Inbox → ErrorCode × Option CString
  | .ended error _, _ => (error, none)
  | .waiting servers (table, a) _, inbox =>
    let result := getLoop servers client.args.R servers.length table inbox a
    (result.1, result.2.1)

def putResult (client : Client) : Started Unit → Inbox → ErrorCode × Option CString
  | .ended error _, _ => (error, none)
  | .waiting servers () _, inbox =>
    ((putLoop servers client.args.W servers.length 0 inbox).1, none)

def sentBy {σ : Type} : Started σ → List Datagram
  | .ended _ sent => sent
  | .waiting _ _ sent => sent

theorem perform_get (sha1 : List UInt8 → Digest) (client : Client) (key : CString) (fuel : Nat)
    (env : Env) (inbox : Inbox) :
    perform sha1 client (.get key) fuel env inbox =
      (getStart sha1 client key fuel env).bind fun started =>
        .done ((getResult client started inbox).1, (getResult client started inbox).2,
          sentBy started) := by
  simp only [perform, networkGet_eq]
  cases getStart sha1 client key fuel env with
  | done started =>
    rcases started with ⟨error, sent⟩ | ⟨servers, ⟨table, a⟩, sent⟩ <;> rfl
  | fault => rfl
  | outOfFuel => rfl

theorem perform_put (sha1 : List UInt8 → Digest) (client : Client) (key value : CString)
    (fuel : Nat) (env : Env) (inbox : Inbox) :
    perform sha1 client (.put key value) fuel env inbox =
      (putStart sha1 client key value fuel env).bind fun started =>
        .done ((putResult client started inbox).1, (putResult client started inbox).2,
          sentBy started) := by
  simp only [perform, networkPut_eq]
  cases putStart sha1 client key value fuel env with
  | done started => rcases started with ⟨error, sent⟩ | ⟨servers, _, sent⟩ <;> rfl
  | fault => rfl
  | outOfFuel => rfl

theorem getResult_heard {client : Client} {servers : NodeList} {s : Htable × Alloc}
    {sent : List Datagram} {key : CString} {inbox : Inbox}
    (ok : (getResult client (.waiting servers s sent) inbox).1 = .none) :
    Heard (.get key) (servers.map Node.addr) inbox
      (getResult client (.waiting servers s sent) inbox).2 := by
  obtain ⟨table, a⟩ := s
  obtain ⟨outcome, member, value, voted, same⟩ := getLoop_heard ok
  rw [show (getResult client (.waiting servers (table, a) sent) inbox).2 = some value from same]
  exact heard_of_vote member voted

theorem putResult_heard {client : Client} {servers : NodeList} {sent : List Datagram}
    {key value : CString} {inbox : Inbox}
    (ok : (putResult client (.waiting servers () sent) inbox).1 = .none) :
    Heard (.put key value) (servers.map Node.addr) inbox
      (putResult client (.waiting servers () sent) inbox).2 := by
  obtain ⟨outcome, member, server, acknowledged⟩ := putLoop_heard ok
  exact heard_of_ack member acknowledged

/-- The end of both functions' start: the request goes out, and the call waits if all the
sends succeed. -/
theorem sent_of_sends {σ : Type} {operation : Operation} {servers : NodeList} {outcomes : List Bool}
    {s : σ} {started : Started σ} {result : Started σ → Inbox → ErrorCode × Option CString}
    (fits : operation.fits = true)
    (ended : ∀ error sent, result (.ended error sent) = fun _ => (error, none))
    (heard : ∀ sent inbox, (result (.waiting servers s sent) inbox).1 = .none →
      Heard operation (servers.map Node.addr) inbox (result (.waiting servers s sent) inbox).2)
    (sends : (match sendMessages operation.message servers outcomes with
      | (.none, sent) => Outcome.done (Started.waiting servers s sent)
      | (error, sent) => .done (.ended error sent)) = .done started) :
    Sent operation (sentBy started) (result started) := by
  split at sends
  · rename_i sent reached
    obtain rfl := sendMessages_reached reached
    obtain rfl := Outcome.done.inj sends
    refine ⟨fun _ => fits, fun inbox ok => ?_⟩
    rw [sentBy, map_peer]
    exact heard _ inbox ok
  · rename_i error sent failed _
    obtain rfl := Outcome.done.inj sends
    rw [ended]
    exact sent_ended (fun _ => fits) failed

theorem getStart_sent {sha1 : List UInt8 → Digest} {client : Client} {key : CString} {fuel : Nat}
    {env : Env} {started : Started (Htable × Alloc)}
    (done : getStart sha1 client key fuel env = .done started) :
    Sent (.get key) (sentBy started) (getResult client started) := by
  have silent (error : ErrorCode) (failed : error ≠ .none) :
      Sent (.get key) [] (getResult client (.ended error [])) :=
    sent_ended (fun some => absurd rfl some) failed
  unfold getStart at done
  split at done
  · exact Outcome.done.inj done ▸ silent .badParameter (by decide)
  rename_i short
  have fits : (Operation.get key).fits = true := decide_eq_true (Nat.not_lt.mp short)
  split at done
  · exact Outcome.done.inj done ▸ silent .network (by decide)
  split at done
  · exact Outcome.done.inj done ▸ silent .nomem (by decide)
  split at done
  · exact Outcome.done.inj done ▸ silent .nomem (by decide)
  obtain ⟨⟨found, left⟩, _, waiting⟩ := Outcome.bind_eq_done_iff.mp done
  cases found with
  | none => contradiction
  | some servers =>
    dsimp only at waiting
    split at waiting
    · exact Outcome.done.inj waiting ▸ silent .badParameter (by decide)
    exact sent_of_sends fits (fun _ _ => rfl) (fun _ _ => getResult_heard) waiting

theorem putStart_sent {sha1 : List UInt8 → Digest} {client : Client} {key value : CString}
    {fuel : Nat} {env : Env} {started : Started Unit}
    (done : putStart sha1 client key value fuel env = .done started) :
    Sent (.put key value) (sentBy started) (putResult client started) := by
  have silent (error : ErrorCode) (failed : error ≠ .none) :
      Sent (.put key value) [] (putResult client (.ended error [])) :=
    sent_ended (fun some => absurd rfl some) failed
  unfold putStart at done
  split at done
  · exact Outcome.done.inj done ▸ silent .badParameter (by decide)
  rename_i short
  have fits : (Operation.put key value).fits = true :=
    decide_eq_true (by simpa only [not_or, Nat.not_lt] using short)
  split at done
  · exact Outcome.done.inj done ▸ silent .network (by decide)
  obtain ⟨⟨found, left⟩, _, waiting⟩ := Outcome.bind_eq_done_iff.mp done
  cases found with
  | none => contradiction
  | some servers =>
    dsimp only at waiting
    split at waiting
    · exact Outcome.done.inj waiting ▸ silent .badParameter (by decide)
    exact sent_of_sends fits (fun _ _ => rfl) (fun _ _ => putResult_heard) waiting

theorem perform_sent {sha1 : List UInt8 → Digest} {client : Client} {operation : Operation}
    {fuel : Nat} {env : Env} {inbox : Inbox} {error : ErrorCode} {value : Option CString}
    {sent : List Datagram}
    (done : perform sha1 client operation fuel env inbox = .done (error, value, sent)) :
    ∃ result, Sent operation sent result ∧ ∀ inbox, perform sha1 client operation fuel env inbox =
      .done ((result inbox).1, (result inbox).2, sent) := by
  cases operation with
  | get key =>
    rw [perform_get] at done
    obtain ⟨started, waiting, same⟩ := Outcome.bind_eq_done_iff.mp done
    obtain ⟨_, _, rfl⟩ : _ ∧ _ ∧ sentBy started = sent := by simpa using same
    exact ⟨_, getStart_sent waiting, fun inbox => by rw [perform_get, waiting]; rfl⟩
  | put key written =>
    rw [perform_put] at done
    obtain ⟨started, waiting, same⟩ := Outcome.bind_eq_done_iff.mp done
    obtain ⟨_, _, rfl⟩ : _ ∧ _ ∧ sentBy started = sent := by simpa using same
    exact ⟨_, putStart_sent waiting, fun inbox => by rw [perform_put, waiting]; rfl⟩

end PpsDht.Cluster
