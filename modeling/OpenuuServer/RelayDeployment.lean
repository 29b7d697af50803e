import OpenuuServer.CoupledMachines
import OpenuuServer.RelayPairing
import OpenuuServer.TicketProvenance

/-! hbbr next to hbbs and the account service. The relay on its own takes what its redeemer says for
granted; here every ticket it lets in was redeemed by a call that the account service made for this very
stream, in the database in which hbbs and the account service mint. -/
namespace OpenuuServer.RelayDeployment
open AtomicProgram CoupledMachines HistoryFolds
open RendezvousMessages (Library RelayResponse)
open RendezvousServer RendezvousPrograms HandlerAuthority TicketProvenance UniqueTable
open PeerRegistry (Bytes LockPeer)
open AccountStore (Minted)

section Answers
variable {lib : Library}

/- What the account service has come to for a call. -/
def replied (lib : Library) (v : RendezvousServer.World) (j : Nat) : Option (AccountCalls.Call × AccountCalls.Answer) :=
  match v.calls[j]? with
  | some (.account c) => (answer (account (AccountCalls.program lib.prim c)) (v.didsOf j)).map fun a => (c,a)
  | _ => none

def Redeemed (lib : Library) (v : RendezvousServer.World) (j : Nat) (ticket relayId : String) : Prop :=
  ∃ e ∈ v.log, e.task = j ∧ e.did = ⟨.account (.redeemTicket (lib.prim.digest ticket) relayId),.ok 1⟩

theorem accountPath {α : Type} {p : Prog AccountStore.Op AccountStore.Resp α} {dids value}
    (path : Path (account p) dids (.ret value)) :
    ∃ dids', dids = dids'.map (fun d => ⟨.account d.1,d.2⟩) ∧ Path p dids' (.ret value) := by
  induction p generalizing dids with
  | ret value' =>
    obtain ⟨rfl,same⟩ := pathRet.mp path
    cases same
    exact ⟨[],rfl,.here _⟩
  | op o next ih =>
    obtain ⟨r,rest,rfl,later⟩ := pathReturned path
    obtain ⟨dids',rfl,whole⟩ := ih r later
    exact ⟨⟨o,r⟩ :: dids',rfl,.next whole⟩

theorem repliedRedeems {v : RendezvousServer.World} {j : Nat} {ticket relayId : String}
    (told : replied lib v j = some (.redeem ticket relayId,.ok (.redeemed true))) : Redeemed lib v j ticket relayId := by
  unfold replied at told
  split at told <;> try contradiction
  obtain ⟨a,found,same⟩ := Option.map_eq_some_iff.mp told
  cases same
  obtain ⟨dids,all,path⟩ := accountPath (answerPath found)
  rw [AccountTickets.redeemDids path] at all
  exact didsOfMember.mp (by rw [all]; exact .head _)

end Answers

/- `make_pair_` with a redeemer that does not know which tickets were used before. -/
def exec (o : RelayPairing.Op) (s : RelayPairing.State) : RelayPairing.Resp o × RelayPairing.State :=
  match o with
  | .redeem ticket _ admitted => (admitted,{ s with spent := if admitted then ticket :: s.spent else s.spent })
  | o => RelayPairing.exec o s

def relay (key : String) : Machine RelayPairing.Op RelayPairing.Resp RelayPairing.Call Nat RelayPairing.State Unit :=
  { RelayPairing.machine key with exec := exec }

def wiring (lib : Library) : Wiring RelayPairing.Op RelayPairing.Resp Op Resp Call Server Unit where
  asks o c := match o,c with
    | .redeem ticket relayId _,.account (.redeem ticket' relayId') => decide (ticket' = ticket ∧ relayId' = relayId)
    | _,_ => false
  relies o r := match o,r with
    | .redeem _ _ _,true => true
    | _,_ => false
  grounds o _ v j := match o with
    | .redeem ticket relayId _ => decide (replied lib v j = some (.redeem ticket relayId,.ok (.redeemed true)))
    | _ => false

/- The random string that a call may make a ticket of. -/
def drawn : Call → List String
  | .account (.ticket _ _ minted) => [minted.text]
  | .tcp _ _ draws => [draws.minted.text]
  | _ => []

/- No two calls draw the same ticket, and SHA-256 keeps them apart. -/
def Fresh (lib : Library) (v : RendezvousServer.World) : Act Call Env → Prop
  | .start c => ∀ d ∈ v.calls, ∀ x ∈ drawn c, ∀ y ∈ drawn d, lib.prim.digest x ≠ lib.prim.digest y
  | _ => True

instance (lib : Library) (v : RendezvousServer.World) (a : Act Call Env) : Decidable (Fresh lib v a) := by
  cases a <;> (unfold Fresh; infer_instance)

def mints : Op → Bool
  | .account (.insertTicket _ _ _) => true
  | _ => false

/- However it is answered, the program mints so many tickets at most, and of this random string alone. -/
def Mints (lib : Library) (x : String) (n : Nat) {α : Type} (p : Prog Op Resp α) : Prop :=
  Within mints n p ∧ p.Every fun o => ∀ h a r, o = .account (.insertTicket h a r) → h = lib.prim.digest x

section Programs
variable {lib : Library} {x : String} {n : Nat} {α β : Type} {conn : Conn} {config : RendezvousMessages.Config} {key : String}
variable {draws : Draws}

theorem mintsFree {p : Prog Op Resp α} (free : p.Every fun o => mints o = false) (n : Nat) : Mints lib x n p := by
  refine ⟨withinFree n free,everyMono (fun o free h a r same => ?_) free⟩
  rw [same] at free
  cases free

/- What comes first mints nothing. -/
theorem mintsThen {p : Prog Op Resp α} {next : α → Prog Op Resp β} (first : p.Every fun o => mints o = false)
    (rest : ∀ value, Mints lib x n (next value)) : Mints lib x n (p >>= next) :=
  ⟨withinThen first fun value => (rest value).1,everyBind (mintsFree first n).2 fun value => (rest value).2⟩

theorem mintsBefore {p : Prog Op Resp α} {next : α → Prog Op Resp β} (first : Mints lib x n p)
    (rest : ∀ value, (next value).Every fun o => mints o = false) : Mints lib x n (p >>= next) :=
  ⟨withinBefore first.1 rest,everyBind first.2 fun value => (mintsFree (rest value) n).2⟩

theorem mintsIte {q : Prop} [Decidable q] {p p' : Prog Op Resp α} (left : Mints lib x n p) (right : Mints lib x n p') :
    Mints lib x n (if q then p else p') := ⟨withinIte left.1 right.1,everyIte.mpr ⟨fun _ => left.2,fun _ => right.2⟩⟩

theorem mintsRet (value : α) : Mints lib x n (.ret value : Prog Op Resp α) := mintsFree (p := .ret value) trivial n

theorem mintsOp {o : Op} {next : Resp o → Prog Op Resp α} (free : mints o = false) (rest : ∀ r, Mints lib x n (next r)) :
    Mints lib x n (.op o next) := mintsThen (p := act o) ⟨free,fun _ => trivial⟩ rest

theorem harmlessMints {o : Op} (free : harmless o = true) : mints o = false := by
  cases o with
  | account a =>
    cases a with
    | insertTicket h a r => contradiction
    | _ => rfl
  | _ => rfl

theorem ticketMints (token uuid : String) (minted : Minted) :
    Mints lib minted.text 1 (account (AccountStore.ticket lib.prim token uuid minted).run) := by
  unfold account
  rw [AccountStore.ticketTree,embedIte,embedIte]
  refine mintsIte (mintsRet _) (mintsIte (mintsRet _) (mintsOp rfl fun found => ?_))
  cases found with
  | error e => exact mintsRet _
  | ok name =>
    cases name with
    | none => exact mintsRet _
    | some name =>
      refine mintsOp rfl fun purged => ?_
      cases purged with
      | error e => exact mintsRet _
      | ok rows =>
        refine mintsBefore (p := act (.account (.insertTicket _ _ _))) ⟨⟨Nat.one_pos,fun _ => trivial⟩,?_,fun _ => trivial⟩ fun inserted => ?_
        · rintro h a r ⟨⟩
          rfl
        · cases inserted <;> trivial

theorem peerTicketMints (token uuid : String) : Mints lib draws.minted.text 1 (peerTicket lib token uuid draws) := by
  unfold peerTicket
  refine mintsIte (mintsRet _) (mintsBefore (ticketMints token uuid draws.minted) fun made => ?_)
  split <;> trivial

theorem authorizedMints (token : String) : (authorized lib token draws).Every fun o => mints o = false :=
  everyMono (fun _ => harmlessMints) (harmlessUser token)

theorem punchArmMints (ph : RendezvousMessages.PunchHoleRequest) :
    (handlePunchArm lib config key conn ph draws).Every fun o => mints o = false := by
  have asked : (handleTcpPunchHoleRequest lib config key conn ph draws).Every fun o => mints o = false := by
    refine everyBind (everyPunchRequest (fun _ => rfl) (fun _ => rfl) (fun _ _ _ => rfl) (by rfl) (by rfl) ph) fun made => ?_
    obtain ⟨msg,toAddr⟩ := made
    cases toAddr with
    | none => exact everySendToTcp (fun _ => rfl) (fun _ => rfl) (fun _ => rfl) fun _ _ => rfl
    | some addr => exact everyAct rfl
  have rest : (PunchSessions.remember lib conn.addr ph.id ph.token >>= fun _ =>
      handleTcpPunchHoleRequest lib config key conn ph draws >>= fun _ => (.ret true : Prog Op Resp Bool)).Every fun o =>
      mints o = false := everyBind (everyAct rfl) fun _ => everyBind asked fun _ => trivial
  unfold handlePunchArm
  exact everyBind (authorizedMints _) fun allowed => everyIte.mpr ⟨fun _ => trivial,fun _ =>
    everyPark rfl (fun _ => rfl) rfl (fun _ => rfl) rest⟩

theorem relayArmMints (rf : RendezvousMessages.RequestRelay) : Mints lib draws.minted.text 1 (handleRelayArm lib conn rf draws) := by
  refine mintsThen (authorizedMints _) fun allowed => mintsIte (mintsRet _) (mintsBefore (peerTicketMints _ _) fun ticket => ?_)
  refine everyPark rfl (fun _ => rfl) rfl (fun _ => rfl) ⟨rfl,fun peer => ?_⟩
  cases (peer : Option LockPeer) with
  | none => trivial
  | some peer => exact ⟨rfl,fun p => ⟨rfl,fun _ => trivial⟩⟩

theorem responseArmMints (rr : RelayResponse) : Mints lib draws.minted.text 1 (handleResponseArm lib config conn rr draws) := by
  have answered : ∀ controller, Mints lib draws.minted.text 1 (answerPeerInitiatedRelay lib rr controller conn draws) := by
    refine fun controller => mintsIte (mintsRet _) (mintsOp rfl fun token => ?_)
    cases (token : Option String) with
    | none => exact mintsRet _
    | some token =>
      refine mintsBefore (p := peerTicket lib token rr.uuid draws) (peerTicketMints _ _) fun ticket => ?_
      cases ticket with
      | none => trivial
      | some ticket => exact everyReplyOnConnection rfl (fun _ => rfl) (fun _ => rfl) fun _ _ => rfl
  refine mintsBefore (answered _) fun _ => everyBind ?_ fun rr => everyBind ?_ fun server => ?_
  · exact everyIte.mpr ⟨fun _ => trivial,fun _ => everyBind (everyGetPk (fun _ => rfl) _ _) fun _ => trivial⟩
  · exact everyIte.mpr ⟨fun _ => trivial,fun _ => everyIte.mpr ⟨fun _ => trivial,fun _ =>
      everyIte.mpr ⟨fun _ => everyGetRelayServer rfl,fun _ => trivial⟩⟩⟩
  · exact everySendToTcp (fun _ => rfl) (fun _ => rfl) (fun _ => rfl) fun _ _ => rfl

theorem tcpMints (bytes : Bytes) : Mints lib draws.minted.text 1 (handleTcp lib config key conn bytes draws) := by
  have tcpPeer : (isTcpPeer lib conn.addr).Every fun o => mints o = false := everyIsTcpPeer fun _ => rfl
  have pk : ∀ version id, (getPk lib config version id draws).Every fun o => mints o = false := everyGetPk fun _ => rfl
  have adopts : (adoptSink lib conn).Every fun o => mints o = false := everyAdoptSink rfl fun _ => rfl
  have pushes : ∀ addr msg, (sendToTcpPeer lib addr msg).Every fun o => mints o = false :=
    fun addr msg => everySendToTcpPeer (fun _ => rfl) (fun _ => rfl) fun _ _ => rfl
  have answers : ∀ addr msg, (sendToTcp lib msg addr).Every fun o => mints o = false :=
    fun addr msg => everySendToTcp (fun _ => rfl) (fun _ => rfl) (fun _ => rfl) fun _ _ => rfl
  unfold handleTcp
  split
  · exact mintsFree (punchArmMints _) 1
  · exact relayArmMints _
  · exact mintsBefore (responseArmMints _) fun _ => tcpPeer
  · exact mintsFree (everyBind (everyBind (pk _ _) fun _ => answers _ _) fun _ => tcpPeer) 1
  · exact mintsFree (everyBind (everyBind (pk _ _) fun _ => answers _ _) fun _ => tcpPeer) 1
  · refine mintsFree (everyBind ?_ fun _ => tcpPeer) 1
    exact everyReplyOnConnection rfl (fun _ => rfl) (fun _ => rfl) fun _ _ => rfl
  · refine mintsFree (everyBind (k := fun _ => .ret true) ?_ fun _ => trivial) 1
    refine everyIte.mpr ⟨fun _ => trivial,fun _ => everyBind adopts fun _ => everyBind (everyRegistry (fun _ => rfl) _) fun _ => ?_⟩
    exact everyBind (pushes _ _) fun _ => everyIte.mpr ⟨fun _ => everyBind (pushes _ _) fun _ => trivial,fun _ => trivial⟩
  · refine mintsFree (everyBind (k := fun _ => .ret true) ?_ fun _ => trivial) 1
    refine everyIte.mpr ⟨fun _ => trivial,fun _ => everyBind adopts fun _ => everyBind (everyRegistry (fun _ => rfl) _) fun _ => ?_⟩
    exact everyBind (pushes _ _) fun _ => trivial
  · exact mintsFree tcpPeer 1

/- Of the calls of the account service one mints a ticket. -/
theorem accountMints (a : AccountCalls.Call) : (∃ x ∈ drawn (.account a), Mints lib x 1 (program lib key (.account a))) ∨
    (program lib key (.account a)).Every fun o => mints o = false := by
  by_cases ticketed : ∃ token relayId minted, a = .ticket token relayId minted
  · obtain ⟨token,relayId,minted,rfl⟩ := ticketed
    refine .inl ⟨minted.text,.head _,mintsBefore (p := account (Except.map AccountCalls.Reply.minted <$> (AccountStore.ticket
      lib.prim token relayId minted).run)) ?_ fun _ => trivial⟩
    rw [account,map_eq_pure_bind,embedBind]
    exact mintsBefore (ticketMints token relayId minted) fun _ => trivial
  · refine .inr (everyBind (embedEvery (fun o belongs => ?_) (AccountCalls.everyBelongs lib.prim a)) fun _ => trivial)
    cases o with
    | insertTicket h sessionHash relayId =>
      obtain ⟨token,minted,same,_⟩ := belongs
      exact absurd ⟨token,relayId,minted,same⟩ ticketed
    | _ => rfl

/- A call mints one ticket, of its own random string, or none. -/
theorem programMints (lib : Library) (key : String) (c : Call) : (∃ x ∈ drawn c, Mints lib x 1 (program lib key c)) ∨
    (program lib key c).Every fun o => mints o = false := by
  have others : (∀ o, ¬ Performs c (.account o)) → (program lib key c).Every fun o => mints o = false := by
    refine fun none => everyMono (fun o allowed => ?_) (programPerforms lib key c)
    cases o with
    | account o => exact absurd allowed (none o)
    | _ => rfl
  cases c with
  | account a => exact accountMints a
  | tcp conn frame draws =>
    have closes : (closing lib conn).Every fun o => mints o = false := everyClosing rfl rfl rfl rfl
    have served : (act (.served conn)).Every fun o => mints o = false := everyAct rfl
    have handled : ∀ config bytes, Mints lib draws.minted.text 1 (handleTcp lib config key conn bytes draws >>= fun keep =>
        if keep then act (.served conn) else closing lib conn) :=
      fun config bytes => mintsBefore (tcpMints bytes) fun keep => everyIte.mpr ⟨fun _ => served,fun _ => closes⟩
    refine .inl ⟨_,.head _,mintsOp rfl fun link => ?_⟩
    cases (link : Option Link) with
    | none => exact mintsRet _
    | some link =>
      change Mints lib draws.minted.text 1 (serve lib key conn frame draws link)
      unfold serve
      split
      · exact mintsOp rfl fun _ => mintsFree served 1
      · exact mintsFree closes 1
      · split
        · exact mintsOp rfl fun _ => handled _ _
        · exact handled _ _
  | console addr cmd => cases cmd <;> exact .inr (others fun _ wrong => by cases wrong)
  | _ => exact .inr (others fun _ wrong => by cases wrong)

end Programs

section Minting
variable {lib : Library} {expired : Nat → Nat} {key : String} {ok : RendezvousServer.World → Act Call Env → Prop}
variable {s : Server} {v : RendezvousServer.World}

theorem mintedOwn (reach : (machine lib expired key).Reach ok s v) {e} (member : e ∈ v.log) {h a r}
    (inserts : e.did.1 = .account (.insertTicket h a r)) : ∃ x ∈ drawn e.call, h = lib.prim.digest x := by
  obtain ⟨t,found,called⟩ := Machine.eventTask reach e member
  have path := Machine.taskPath reach found
  have there : e.did ∈ v.didsOf e.task := didsOfMember.mpr ⟨e,member,rfl,rfl⟩
  rw [called] at path
  rcases programMints lib key e.call with ⟨x,own,mints⟩ | free
  · exact ⟨x,own,(everyOnPath path mints.2).1 _ there h a r inserts⟩
  · have none := (everyOnPath path free).1 _ there
    rw [inserts] at none
    cases none

theorem mintOnce (lib : Library) (key : String) (c : Call) : (program lib key c).AtMostOne fun o => mints o = true := by
  rcases programMints lib key c with ⟨x,_,mints⟩ | free
  · exact withinOne mints.1
  · exact withinOne (withinFree 1 free)

variable (fresh : ∀ v a, ok v a → Fresh lib v a)
include fresh

theorem drawnApart (reach : (machine lib expired key).Reach ok s v) :
    v.calls.Pairwise fun d c => ∀ x ∈ drawn c, ∀ y ∈ drawn d, lib.prim.digest x ≠ lib.prim.digest y := by
  refine Machine.callsInduction .nil (fun v c _ meets ih => ?_) reach
  exact List.pairwise_append.mpr ⟨ih,List.pairwise_singleton _ _,fun d there c' last => by
    cases List.mem_singleton.mp last
    exact fresh _ _ meets d there⟩

theorem insertedOnce (reach : (machine lib expired key).Reach ok s v) {e e' h a r a' r'} (left : e ∈ v.log) (right : e' ∈ v.log)
    (one : e.did.1 = .account (.insertTicket h a r)) (other : e'.did.1 = .account (.insertTicket h a' r')) : e = e' := by
  obtain ⟨x,own,rfl⟩ := mintedOwn reach left one
  obtain ⟨y,own',same⟩ := mintedOwn reach right other
  obtain ⟨t,found,called⟩ := Machine.eventTask reach e left
  obtain ⟨t',found',called'⟩ := Machine.eventTask reach e' right
  have apart := List.pairwise_iff_getElem.mp (drawnApart fresh reach)
  obtain ⟨bound,here⟩ := List.getElem?_eq_some_iff.mp (callAt found)
  obtain ⟨bound',there⟩ := List.getElem?_eq_some_iff.mp (callAt found')
  rw [← called,← here] at own
  rw [← called',← there] at own'
  have task : e.task = e'.task := by
    rcases Nat.lt_trichotomy e.task e'.task with less | task | more
    · exact absurd same.symm (apart _ _ bound bound' less y own' x own)
    · exact task
    · exact absurd same (apart _ _ bound' bound more x own y own')
  exact onceEach (fun _ c => mintOnce lib key c) reach left right task (by rw [one]; rfl) (by rw [other]; rfl)

/- A ticket is redeemed once, be it twice asked for by two relays. -/
theorem redeemedOnce (empty : s.accounts.tickets = .empty) (reach : (machine lib expired key).Reach ok s v) {e e' h r r'}
    (left : e ∈ v.log) (right : e' ∈ v.log) (one : e.did = ⟨.account (.redeemTicket h r),.ok 1⟩)
    (other : e'.did = ⟨.account (.redeemTicket h r'),.ok 1⟩) : ¬ e.pos < e'.pos := by
  intro less
  -- either redemption found a row of its own
  have row : ∀ {x y}, x ∈ v.log → x.did = ⟨.account (.redeemTicket h y),.ok 1⟩ → ∃ d ∈ v.log, d.pos < x.pos ∧
      (∃ a r, d.did.1 = .account (.insertTicket h a r)) ∧ ∀ b ∈ v.log, d.pos < b.pos → b.pos < x.pos → ¬ Redeems h b.did := by
    intro x y member did
    obtain ⟨u,reached,_,shared,history,_⟩ := Machine.moment reach member
    have hit : (AccountStore.exec lib.prim (.redeemTicket h y) x.before.accounts).1 = .ok 1 :=
      (Machine.responseIs reach member did).symm
    obtain ⟨row,there,rfl,_⟩ := AccountTickets.redeemFinds hit
    rw [← shared] at there
    obtain ⟨d,issued⟩ := rowsIssued empty reached row there
    obtain ⟨inside,before⟩ := (history d).mp issued.inserted.1
    exact ⟨d,inside,before,⟨_,_,congrArg Sigma.fst issued.inserted.2⟩,fun b there less more =>
      issued.unused b ((history b).mpr ⟨there,more⟩) less⟩
  obtain ⟨d,inside,before,⟨a,x,inserts⟩,_⟩ := row left one
  obtain ⟨d',inside',_,⟨a',x',inserts'⟩,unused⟩ := row right other
  obtain rfl := insertedOnce fresh reach inside inside' inserts inserts'
  exact unused e left before less ⟨r,one⟩

end Minting

abbrev Deployment := Both RelayPairing.Op RelayPairing.Resp RelayPairing.Call RelayPairing.State Unit Op Resp Call Server Unit

/- The runs of a relay with the key `key` beside a rendezvous server and an account service. -/
def Runs (lib : Library) (expired : Nat → Nat) (key key' : String) (now : Nat) (s : Server) (b : Deployment) : Prop :=
  Reach (relay key) (machine lib expired key') (wiring lib) (Fresh lib) (.init now) s b

/- The account service was asked for this stream, and this is where it redeemed the ticket. -/
def Served (lib : Library) (b : Deployment) (i : Nat) (rf : RelayPairing.RequestRelay) (e : Event Op Resp Call Server) : Prop :=
  ∃ j, (i,j) ∈ b.asked ∧ e ∈ b.back.log ∧ e.task = j ∧
    e.did = ⟨.account (.redeemTicket (lib.prim.digest rf.token) rf.uuid),.ok 1⟩

section Streams
variable {lib : Library} {expired : Nat → Nat} {key key' : String} {now : Nat} {s : Server} {b : Deployment}

theorem eventsLast {v v' : RendezvousServer.World} {a : Act Call Env} (stepped : (machine lib expired key).step v a = some v')
    {e : Event Op Resp Call Server} (member : e ∈ v.log) : e ∈ v'.log := by
  cases a with
  | start c => cases Option.some.inj stepped; exact member
  | env x => cases Option.some.inj stepped; exact member
  | advance i =>
    obtain ⟨c,o,next,_,_,rfl⟩ := Machine.advanceCases stepped
    exact Machine.stillThere member

theorem redeemedFor (runs : Runs lib expired key key' now s b) : ∀ e ∈ b.front.log, ∀ ticket relayId admitted,
    e.did = ⟨.redeem ticket relayId admitted,true⟩ → ∃ j, (e.task,j) ∈ b.asked ∧ Redeemed lib b.back j ticket relayId := by
  intro e member ticket relayId admitted did
  have known := learned (K := fun d v j => ∀ ticket relayId admitted, d = ⟨.redeem ticket relayId admitted,true⟩ →
    Redeemed lib v j ticket relayId) ?_ ?_ runs e member (by rw [did]; rfl)
  · obtain ⟨j,asked,redeemed⟩ := known
    exact ⟨j,asked,redeemed _ _ _ did⟩
  · rintro v _ o r j _ grounds ticket relayId admitted ⟨⟩
    exact repliedRedeems (of_decide_eq_true grounds)
  · intro v a v' _ stepped d j known ticket relayId admitted did
    obtain ⟨e,there,rest⟩ := known ticket relayId admitted did
    exact ⟨e,eventsLast stepped there,rest⟩

/- What the relay has let in. -/
theorem spentRedeemed (runs : Runs lib expired key key' now s b) : ∀ ticket ∈ b.front.shared.spent,
    ∃ e ∈ b.front.log, ∃ relayId admitted, e.did = ⟨.redeem ticket relayId admitted,true⟩ := by
  refine Machine.invariant (I := fun w => ∀ ticket ∈ w.shared.spent, ∃ e ∈ w.log, ∃ relayId admitted,
    e.did = ⟨.redeem ticket relayId admitted,true⟩) (fun _ none => by cases none) ?_ ?_ ?_ (frontReached runs)
  · intro w c _ _ ih; exact ih
  · intro w i c o next _ _ _ _ ih ticket member
    have old : ticket ∈ w.shared.spent → ∃ e ∈ ((relay key).performed w i c o next).log, ∃ relayId admitted,
        e.did = ⟨.redeem ticket relayId admitted,true⟩ := by
      intro there
      obtain ⟨e,inside,rest⟩ := ih ticket there
      exact ⟨e,Machine.stillThere inside,rest⟩
    cases o with
    | redeem ticket' relayId admitted =>
      cases admitted with
      | false => exact old member
      | true =>
        rcases List.mem_cons.mp member with rfl | there
        · exact ⟨_,Machine.happened,relayId,true,rfl⟩
        · exact old there
    | _ => exact old member
  · intro w e _ _ ih; exact ih

theorem servedOnce (empty : s.accounts.tickets = .empty) (runs : Runs lib expired key key' now s b) {i i' : Nat}
    {rf rf' : RelayPairing.RequestRelay} {e e' : Event Op Resp Call Server} (left : Served lib b i rf e)
    (right : Served lib b i' rf' e') (same : lib.prim.digest rf.token = lib.prim.digest rf'.token) : i = i' := by
  obtain ⟨j,asked,inside,rfl,did⟩ := left
  obtain ⟨j',asked',inside',rfl,did'⟩ := right
  rw [← same] at did'
  have reach := backReached runs
  have first := redeemedOnce (fun _ _ fresh => fresh) empty reach inside inside' did did'
  have second := redeemedOnce (fun _ _ fresh => fresh) empty reach inside' inside did' did
  rw [Machine.samePosition reach inside inside' (by omega)] at asked
  exact askedOnce runs asked asked'

/- Next to the account service the relay does a run of the relay whose redeemer remembers what was used:
the service never lets a ticket in twice, whatever relays ask it and when. -/
theorem relayAsSpecified (empty : s.accounts.tickets = .empty) (runs : Runs lib expired key key' now s b) :
    (RelayPairing.machine key).Reach (fun _ _ => True) (.init now) b.front := by
  refine frontRefines RelayPairing.exec (fun b reach i c o next found grounded => ?_) runs
  cases o with
  | redeem ticket relayId admitted =>
    cases admitted with
    | false => rfl
    | true =>
      have unspent : ticket ∉ b.front.shared.spent := by
        intro spent
        obtain ⟨e,inside,former,admitted,did⟩ := spentRedeemed reach ticket spent
        obtain ⟨j,asked,x,there,task,redeemed⟩ := redeemedFor reach e inside _ _ _ did
        simp only [Both.grounded,nextIs found] at grounded
        obtain ⟨⟨i',j'⟩,asked',here⟩ := List.any_eq_true.mp grounded
        obtain ⟨rfl,told⟩ : i' = i ∧ replied lib b.back j' = some (.redeem ticket relayId,.ok (.redeemed true)) := by
          simpa [wiring] using here
        obtain ⟨x',there',task',redeemed'⟩ := repliedRedeems told
        have first : Served lib b e.task ⟨ticket,former,""⟩ x := ⟨j,asked,there,task,redeemed⟩
        have second : Served lib b i' ⟨ticket,relayId,""⟩ x' := ⟨j',asked',there',task',redeemed'⟩
        have own : e.task = i' := servedOnce empty reach first second rfl
        -- the task has redeemed before, and no task does so twice
        have path := Machine.taskPath (frontReached reach) found
        have before : e.did ∈ b.front.didsOf i' := didsOfMember.mpr ⟨e,inside,own,rfl⟩
        have once := risingAtMostOne (RelayPairing.operationsRise key i' c) (RelayPairing.Op.redeem ticket relayId true).ctorIdx
        exact (atMostOneOnPath path once before (by rw [did]; rfl)).1 rfl
      exact (if_pos ⟨rfl,unspent⟩).symm
  | _ => rfl

end Streams

section Concrete

def quietLibrary : Library := plainLibrary fun _ => none

/- A stream of relay-1: its ticket is minted, it asks, and the account service answers. -/
def streamMoves (i : Nat) (ticket : Minted) (port steps : Nat) : List (Move RelayPairing.Call Nat Call Env) :=
  [.back (.start (.account (.ticket controllerToken.text "relay-1" ticket)))] ++
    (advances (2 * i) 3).map Move.back ++
    [.front (.start (RelayPairing.asking ticket.text port)),.front (.advance i),.ask i (.account (.redeem ticket.text "relay-1")),
      .back (.advance (2 * i + 1))] ++
    List.replicate steps (.front (.advance i))

def joinedRelay : RelayPairing.Op := .relay ⟨"192.0.2.1",1001⟩ ⟨1,false,true⟩ ⟨0,false,true⟩ "192.0.2.1:1001"

theorem streamsJoined : ∃ b, Runs quietLibrary hourAgo "secret" "" 0 RelayForcing.unregistered b ∧
    ∃ e ∈ b.front.log, e.did.1 = joinedRelay := by
  have joins : ((run (relay "secret") (machine quietLibrary hourAgo "") (wiring quietLibrary) (Fresh quietLibrary)
      (initial (.init 0) RelayForcing.unregistered) (streamMoves 0 AccountCalls.mintedB 1000 3 ++
        streamMoves 1 AccountCalls.mintedC 1001 4)).any fun b => b.front.log.any fun e => decide (e.did.1 = joinedRelay)) = true := by
    decide +kernel
  obtain ⟨b,ran,shown⟩ := (Option.any_eq_true _ _).mp joins
  obtain ⟨e,inside,joined⟩ := List.any_eq_true.mp shown
  exact ⟨b,reachRun .initial ran,e,inside,of_decide_eq_true joined⟩

theorem joinedAsSpecified : ∃ b, Runs quietLibrary hourAgo "secret" "" 0 RelayForcing.unregistered b ∧
    (∃ e ∈ b.front.log, e.did.1 = joinedRelay) ∧ (RelayPairing.machine "secret").Reach (fun _ _ => True) (.init 0) b.front := by
  obtain ⟨b,runs,joins⟩ := streamsJoined
  exact ⟨b,runs,joins,relayAsSpecified rfl runs⟩

end Concrete
end OpenuuServer.RelayDeployment
