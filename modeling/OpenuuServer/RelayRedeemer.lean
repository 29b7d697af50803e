import OpenuuServer.AccountTickets

/-! How hbbr validates a relay ticket: in the account database itself, or over HTTP at
openuu-account. The HTTP way checks lengths of its own, asks a second time if the first
request did not get through, and denies whatever it is not sure about. -/
namespace OpenuuServer.RelayRedeemer
open AtomicProgram UniqueTable AccountStore AccountCalls AccountTickets

/- JSON objects as far as the two sides exchange them; serialising one and parsing it gives
it back. -/
inductive Json where
  | bool (value : Bool)
  | text (value : String)
  deriving DecidableEq

abbrev Object := List (String × Json)

def Object.text (body : Object) (key : String) : Option String :=
  match body.lookup key with
  | some (.text value) => some value
  | _ => none

def Object.bool (body : Object) (key : String) : Option Bool :=
  match body.lookup key with
  | some (.bool value) => some value
  | _ => none

/- A body that is not JSON is `none`. -/
structure Request where
  secret : Option String
  body : Option Object
  deriving DecidableEq

structure Response where
  status : Nat
  body : Option Object
  deriving DecidableEq

def Response.isSuccess (r : Response) : Bool := 200 ≤ r.status && r.status < 300

/- The account service: its store, and the calls of `Accounts::redeem` it has made. -/
structure Service where
  store : Store
  redeemed : List (String × String)

section Server
variable (prim : Primitives)

def redeemIn (ticket relayId : String) (s : Store) : Except Error Bool × Store :=
  (redeem prim ticket relayId).run.run (exec prim) s

/- Only asked after a `redeem` that was false. -/
def ticketFailure (s : Store) (ticket relayId : String) : String :=
  match s.tickets.rows.find? fun k => k.hash = prim.digest ticket with
  | none => "unknown"
  | some k => if k.expires ≤ s.now then "expired" else if k.relayId ≠ relayId then "relay_mismatch" else "unknown"

def malformed : Response := ⟨200,some [("ok",.bool false),("reason",.text "malformed")]⟩

/- `internal::redeem`, the handler of the account service. -/
def handle (secret : String) (r : Request) (w : Service) : Response × Service :=
  if r.secret ≠ some secret then (⟨401,some [("error",.text "Bad internal secret")]⟩,w)
  else match r.body.bind fun body => (body.text "ticket").bind fun ticket => (body.text "relay_id").map fun id => (ticket,id) with
  | none => (malformed,w)
  | some (ticket,relayId) =>
    if ticket.utf8ByteSize ≠ 64 || relayId.isEmpty || 128 < relayId.utf8ByteSize then (malformed,w)
    else
      let result := redeemIn prim ticket relayId w.store
      let w := ⟨result.2,w.redeemed ++ [(ticket,relayId)]⟩
      match result.1 with
      | .ok true => (⟨200,some [("ok",.bool true)]⟩,w)
      | .ok false =>
        (⟨200,some [("ok",.bool false),("reason",.text (ticketFailure prim w.store ticket relayId))]⟩,w)
      | .error _ => (⟨500,some [("error",.text "Ticket store unavailable")]⟩,w)

end Server

/- What becomes of an attempt. Only a request that nothing received can fail as a connect error. -/
inductive Outcome where
  | connectError
  | unsent
  | lost
  | answered
  deriving DecidableEq

def accept (r : Response) : Bool :=
  if r.isSuccess then
    match r.body with
    | some body => body.bool "ok" = some true
    | none => false
  else false

section Client
variable (prim : Primitives) (secret : String) (net : Nat → Outcome)

def send (r : Request) (attempt : Nat) (w : Service) : Except Bool Response × Service :=
  match net attempt with
  | .connectError => (.error true,w)
  | .unsent => (.error false,w)
  | .lost => (.error false,(handle prim secret r w).2)
  | .answered => (.ok (handle prim secret r w).1,(handle prim secret r w).2)

def attempts (r : Request) : List Nat → Service → Bool × Service
  | [],w => (false,w)
  | attempt :: rest,w =>
    match send prim secret net r attempt w with
    | (.error isConnect,w) => if isConnect && attempt = 1 then attempts r rest w else (false,w)
    | (.ok response,w) => (accept response,w)

inductive Redeemer where
  | inProcess
  | http (secret : String)
  deriving DecidableEq

def Redeemer.redeem (r : Redeemer) (ticket relayId : String) (w : Service) : Bool × Service :=
  match r with
  | .inProcess =>
    let result := redeemIn prim ticket relayId w.store
    (match result.1 with | .ok success => success | .error _ => false,⟨result.2,w.redeemed ++ [(ticket,relayId)]⟩)
  | .http own => attempts prim secret net ⟨some own,some [("ticket",.text ticket),("relay_id",.text relayId)]⟩ [1,2] w

end Client

/- The relay ids that get a ticket. -/
def Fits (relayId : String) : Prop := relayId ≠ "" ∧ relayId.utf8ByteSize ≤ 128

theorem ticketsFit (prim : Primitives) (c : Call) :
    (program prim c).Every fun o => ∀ h session relayId, o = .insertTicket h session relayId → Fits relayId := by
  cases c with
  | ticket token relayId minted =>
    simp only [program,answer,everyMap,ticketTree]
    simp only [everyIte,everyRet,everyOp,everyAfterwards,String.isEmpty_iff]
    refine ⟨fun _ => trivial,fun size => ⟨fun _ => trivial,fun _ => ⟨by simp,fun name =>
      ⟨fun _ => trivial,fun _ => ⟨by simp,fun _ => ⟨?_,by simp⟩⟩⟩⟩⟩⟩
    rintro h session id same
    cases same
    exact ⟨fun none => size (.inl none),by omega⟩
  | _ =>
    simp only [program,answer,everyMap,createUserTree,setPasswordTree,revokeUserTree,setEnabledTree,deleteUserTree,
      userTree,loginTree,redeemTree,revokeTree]
    simp

theorem rowsFit {prim : Primitives} {ok : World → Act Call Nat → Prop} {now : Int} {w : World}
    (reach : (machine prim).Reach ok (Store.init now) w) : ∀ k ∈ w.shared.tickets, Fits k.relayId := by
  intro k inside
  obtain ⟨e,kept,insert,_⟩ := ticketOrigin rfl reach k inside
  obtain ⟨t,found,same⟩ := Machine.eventTask reach e kept
  have path := Machine.taskPath reach found
  have did : e.did ∈ w.didsOf e.task := didsOfMember.mpr ⟨e,kept,rfl,rfl⟩
  exact (everyOnPath path (ticketsFit prim t.call)).1 e.did did _ _ _ insert

section Service
variable {prim : Primitives} {ticket relayId : String} {s : Store}

theorem redeemIs : redeemIn prim ticket relayId s = if ticket.utf8ByteSize ≠ 64 then (.ok false,s) else
    (.ok (s.tickets.affected (fun k => k.hash = prim.digest ticket ∧ k.relayId = relayId ∧ s.now < k.expires ∧
      k.sessionHash ∈ s.liveHashes) = 1),(exec prim (.redeemTicket (prim.digest ticket) relayId) s).2) := by
  rw [redeemIn,redeemTree]
  split <;> rfl

/- What the length checks of the handler refuse would not have been found. -/
theorem refusedSame (fit : ∀ k ∈ s.tickets, Fits k.relayId) (refused : ticket.utf8ByteSize ≠ 64 ∨ ¬ Fits relayId) :
    redeemIn prim ticket relayId s = (.ok false,s) := by
  rw [redeemIs]
  split
  · rfl
  rename_i length
  have other : ∀ k ∈ s.tickets, k.relayId ≠ relayId := by
    intro k inside same
    exact (refused.resolve_left length) (same ▸ fit k inside)
  have none : ∀ k ∈ s.tickets, decide (k.hash = prim.digest ticket ∧ k.relayId = relayId ∧ s.now < k.expires ∧
      k.sessionHash ∈ s.liveHashes) = false := by
    intro k inside
    simp [other k inside]
  rw [affectedZero.mpr none]
  refine Prod.ext rfl ?_
  simp only [exec,deleteSame.mpr none]

theorem acceptRejected (reason : String) : accept ⟨200,some [("ok",.bool false),("reason",.text reason)]⟩ = false := rfl

/- What the handler does with a request of an hbbr that has the secret. -/
theorem handleRedeems (prim : Primitives) (ticket relayId : String) (fit : ∀ k ∈ s.tickets, Fits k.relayId)
    (secret : String) (redeemed : List (String × String)) :
    ∃ more : List (String × String), more.length ≤ 1 ∧
      (handle prim secret ⟨some secret,some [("ticket",.text ticket),("relay_id",.text relayId)]⟩ ⟨s,redeemed⟩).2 =
        ⟨(redeemIn prim ticket relayId s).2,redeemed ++ more⟩ ∧
      (accept (handle prim secret ⟨some secret,some [("ticket",.text ticket),("relay_id",.text relayId)]⟩ ⟨s,redeemed⟩).1 = true ↔
        (redeemIn prim ticket relayId s).1 = .ok true) := by
  have parsed : (Object.text [("ticket",.text ticket),("relay_id",.text relayId)] "ticket").bind (fun ticket' =>
      (Object.text [("ticket",.text ticket),("relay_id",.text relayId)] "relay_id").map fun id => (ticket',id)) =
      some (ticket,relayId) := by
    simp [Object.text,List.lookup_cons]
  simp only [handle,ne_eq,not_true,if_false,Option.bind_some,parsed]
  split
  · rename_i refused
    have small : ticket.utf8ByteSize ≠ 64 ∨ ¬ Fits relayId := by
      simp only [Bool.or_eq_true,decide_eq_true_eq,String.isEmpty_iff] at refused
      rcases refused with (length | empty) | long
      · exact .inl length
      · exact .inr fun fits => fits.1 empty
      · exact .inr fun fits => by have := fits.2; omega
    rw [refusedSame fit small]
    exact ⟨[],by simp,by simp,by simp [malformed,acceptRejected]⟩
  · refine ⟨[(ticket,relayId)],by simp,?_,?_⟩
    · split <;> rfl
    · split <;> rename_i result
      · exact iff_of_true rfl result
      · simp [acceptRejected,result]
      · simp [accept,Response.isSuccess,result]

/- The answer of an hbbr that asks its own database. -/
theorem inProcessIs (prim : Primitives) (ticket relayId : String) (s : Store) (net : Nat → Outcome) (secret : String)
    (redeemed : List (String × String)) :
    (Redeemer.inProcess.redeem prim secret net ticket relayId ⟨s,redeemed⟩).2.store = (redeemIn prim ticket relayId s).2 ∧
    ((Redeemer.inProcess.redeem prim secret net ticket relayId ⟨s,redeemed⟩).1 = true ↔
      (redeemIn prim ticket relayId s).1 = .ok true) := by
  refine ⟨rfl,?_⟩
  simp only [Redeemer.redeem]
  cases (redeemIn prim ticket relayId s).1 <;> simp

end Service

/- An attempt is answered: the first one, or the second one where there is a second one. -/
def Answered (net : Nat → Outcome) : Prop :=
  net 1 = .answered ∨ net 1 = .connectError ∧ net 2 = .answered

/- The attempts come to one exchange with the handler at most. -/
theorem attemptsAre (prim : Primitives) (secret : String) (net : Nat → Outcome) (r : Request) (w : Service) :
    Answered net ∧ attempts prim secret net r [1,2] w = (accept (handle prim secret r w).1,(handle prim secret r w).2) ∨
    ¬ Answered net ∧ (attempts prim secret net r [1,2] w = (false,(handle prim secret r w).2) ∨
      attempts prim secret net r [1,2] w = (false,w)) := by
  cases first : net 1 with
  | connectError => cases second : net 2 <;> simp [Answered,attempts,send,first,second]
  | unsent => simp [Answered,attempts,send,first]
  | lost => simp [Answered,attempts,send,first]
  | answered => simp [Answered,attempts,send,first]

/- Over HTTP a ticket is redeemed at most once and never admitted where the database itself
would not admit it. -/
theorem httpRefinesInProcess {prim : Primitives} {ok : World → Act Call Nat → Prop} {now : Int} {w : World}
    (reach : (machine prim).Reach ok (Store.init now) w) (secret ticket relayId : String) (net : Nat → Outcome)
    (redeemed : List (String × String)) :
    let before : Service := ⟨w.shared,redeemed⟩
    let own := Redeemer.inProcess.redeem prim secret net ticket relayId before
    let http := (Redeemer.http secret).redeem prim secret net ticket relayId before
    (∃ more : List (String × String), more.length ≤ 1 ∧ http.2.redeemed = redeemed ++ more) ∧
    (http.1 = true → own.1 = true) ∧
    (http.2.store = w.shared ∨ http.2.store = own.2.store) ∧
    (Answered net → http.1 = own.1 ∧ http.2.store = own.2.store) := by
  intro before own http
  obtain ⟨more,once,after,answer⟩ := handleRedeems prim ticket relayId (rowsFit reach) secret redeemed
  obtain ⟨store,admits⟩ := inProcessIs prim ticket relayId w.shared net secret redeemed
  rcases attemptsAre prim secret net ⟨some secret,some [("ticket",.text ticket),("relay_id",.text relayId)]⟩ before with
    ⟨answered,same⟩ | ⟨unanswered,same | same⟩
  · have result : http = (accept _,_) := same
    rw [result,after]
    exact ⟨⟨more,once,rfl⟩,fun admitted => admits.mpr (answer.mp admitted),.inr store.symm,
      fun _ => ⟨Bool.eq_iff_iff.mpr (answer.trans admits.symm),store.symm⟩⟩
  · have result : http = (false,_) := same
    rw [result,after]
    exact ⟨⟨more,once,rfl⟩,fun wrong => Bool.noConfusion wrong,.inr store.symm,fun answered => absurd answered unanswered⟩
  · have result : http = (false,before) := same
    rw [result]
    exact ⟨⟨[],by simp,by simp [before]⟩,fun wrong => Bool.noConfusion wrong,.inl rfl,fun answered => absurd answered unanswered⟩

/- The first attempt finds nobody, the second one redeems. -/
theorem secondAttemptRedeems : ∃ w, (machine plain).Reach (Fresh plain) (Store.init 100) w ∧
    let net := fun n : Nat => if n = 1 then Outcome.connectError else .answered
    let http := (Redeemer.http "test-only-internal-secret").redeem plain "test-only-internal-secret" net
      testerTicket.text "relay-1" ⟨w.shared,[]⟩
    http.1 = true ∧ http.2.redeemed = [(testerTicket.text,"relay-1")] ∧
    http.2.store = (Redeemer.inProcess.redeem plain "test-only-internal-secret" net testerTicket.text "relay-1" ⟨w.shared,[]⟩).2.store := by
  obtain ⟨w,reach,shown⟩ := Machine.reachWith (Fresh plain) (fun w a => decide (Fresh plain w a))
    (fun _ _ => of_decide_eq_true) (testerActs.take 12) (m := machine plain) (s := Store.init 100)
    (P := fun w =>
      let http := (Redeemer.http "test-only-internal-secret").redeem plain "test-only-internal-secret"
        (fun n => if n = 1 then .connectError else .answered) testerTicket.text "relay-1" ⟨w.shared,[]⟩
      http.1 && http.2.redeemed = [(testerTicket.text,"relay-1")]) (by decide +kernel)
  simp only [Bool.and_eq_true,decide_eq_true_eq] at shown
  obtain ⟨_,_,_,answered⟩ := httpRefinesInProcess reach "test-only-internal-secret" testerTicket.text "relay-1"
    (fun n => if n = 1 then .connectError else .answered) []
  exact ⟨w,reach,shown.1,shown.2,(answered (.inr ⟨rfl,rfl⟩)).2⟩

end OpenuuServer.RelayRedeemer
