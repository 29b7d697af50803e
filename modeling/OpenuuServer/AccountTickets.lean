import OpenuuServer.AccountCalls

/-! Relay tickets under every interleaving of the account calls. A ticket row stems from one
`ticket` call, is removed by the statement that redeems it, and that statement itself
looks at the session; nothing depends on the earlier check in `ticket`. -/
namespace OpenuuServer.AccountTickets
open AtomicProgram UniqueTable AccountStore AccountCalls

def SessionLive (prim : Primitives) (s : Store) (token : String) : Prop :=
  ∃ row ∈ s.sessions, row.tokenHash = prim.digest token ∧ s.now < row.expires ∧
    ∃ a ∈ s.accounts, a.name = row.name ∧ a.enabled = true

/- What the statements do to the rows of `relay_tickets`. -/
theorem ticketRows (prim : Primitives) (o : Op) (s : Store) {row : RelayTicket}
    (member : row ∈ (exec prim o s).2.tickets) : row ∈ s.tickets ∨
      o = .insertTicket row.hash row.sessionHash row.relayId ∧ row.expires = s.now + 60 := by
  cases o with
  | insertTicket h sessionHash relayId =>
    simp only [exec,inserted] at member
    split at member
    · rename_i t added
      rcases (memInsert added).mp member with old | rfl
      · exact .inl old
      · exact .inr ⟨rfl,rfl⟩
    · exact .inl member
  | deleteTicketsOf name => exact .inl (memDelete.mp member).1
  | purgeTickets => exact .inl (memDelete.mp member).1
  | redeemTicket h relayId => exact .inl (memDelete.mp member).1
  | insertAccount name hash => 
    simp only [exec,inserted] at member
    split at member <;> exact .inl member
  | insertSession h name => 
    simp only [exec,inserted] at member
    split at member <;> exact .inl member
  | _ => exact .inl member

theorem redeemFinds {prim : Primitives} {h : Bytes} {relayId : String} {s : Store}
    (hit : (exec prim (.redeemTicket h relayId) s).1 = .ok 1) :
    ∃ row ∈ s.tickets, row.hash = h ∧ row.relayId = relayId ∧ s.now < row.expires ∧
      row.sessionHash ∈ s.liveHashes := by
  have some := Except.ok.inj hit
  obtain ⟨row,inside,chosen⟩ := affectedPos.mp (by rw [some]; exact Nat.one_pos)
  exact ⟨row,inside,by simpa using chosen⟩

theorem redeemRemoves {prim : Primitives} {h : Bytes} {relayId : String} {s : Store}
    (hit : (exec prim (.redeemTicket h relayId) s).1 = .ok 1) :
    ∀ row ∈ (exec prim (.redeemTicket h relayId) s).2.tickets, row.hash ≠ h := by
  intro row member same
  obtain ⟨found,inside,hash,rest⟩ := redeemFinds hit
  obtain ⟨kept,spared⟩ := memDelete.mp member
  -- the hash is the primary key: the surviving row would be the one just deleted
  have one := sameRow (fun _ _ => Eq.symm) kept inside (same.trans hash.symm)
  subst one
  simp [hash,rest] at spared

section Runs
variable {prim : Primitives} {ok : World → Act Call Nat → Prop} {s : Store} {w : World}
/- Every row was inserted by an event that carries its columns. -/
theorem ticketOrigin (empty : s.tickets = .empty) (reach : (machine prim).Reach ok s w) :
    ∀ row ∈ w.shared.tickets, ∃ e ∈ w.log,
      e.did.1 = .insertTicket row.hash row.sessionHash row.relayId ∧ row.expires = e.before.now + 60 := by
  refine Machine.invariant (I := fun w => ∀ row ∈ w.shared.tickets, ∃ e ∈ w.log,
    e.did.1 = .insertTicket row.hash row.sessionHash row.relayId ∧ row.expires = e.before.now + 60)
    ?_ ?_ ?_ ?_ reach
  · intro row member
    have none : row ∈ s.tickets := member
    rw [empty] at none
    exact absurd none notMemEmpty
  · intro w c _ _ ih; exact ih
  · intro w i c o next _ _ _ _ ih row member
    rcases ticketRows prim o w.shared member with old | ⟨same,expires⟩
    · obtain ⟨e,inside,rest⟩ := ih row old
      exact ⟨e,Machine.stillThere inside,rest⟩
    · exact ⟨_,Machine.happened,same,expires⟩
  · intro w e _ _ ih; exact ih

variable (fresh : ∀ w a, ok w a → Fresh prim w a)
include fresh

theorem insertTicketOnce (reach : (machine prim).Reach ok s w) {e e' h a r a' r'}
    (left : e ∈ w.log) (right : e' ∈ w.log)
    (one : e.did.1 = .insertTicket h a r) (other : e'.did.1 = .insertTicket h a' r') : e = e' := by
  have belongs := eventBelongs reach left
  have belongs' := eventBelongs reach right
  rw [one] at belongs
  rw [other] at belongs'
  obtain ⟨token,minted,call,hash,_⟩ := belongs
  obtain ⟨token',minted',call',hash',_⟩ := belongs'
  obtain ⟨t,found,same⟩ := Machine.eventTask reach e left
  obtain ⟨t',found',same'⟩ := Machine.eventTask reach e' right
  rw [call] at same
  rw [call'] at same'
  have text : minted.text = minted'.text :=
    noCollision fresh reach t.call (List.mem_of_getElem? (callAt found)) t'.call
      (List.mem_of_getElem? (callAt found')) _ (by simp [same,Call.secrets]) _
      (by simp [same',Call.secrets]) (hash.symm.trans hash')
  have task := sameMinter fresh reach found found' (x := minted.text)
    (by simp [same,Call.minted]) (by simp [same',Call.minted,text])
  exact kindOnceEach reach left right task (by rw [one,other]; rfl)

/- A redeemed hash was inserted before, and no row carries it any more. -/
theorem redeemedGone (empty : s.tickets = .empty) (reach : (machine prim).Reach ok s w) :
    ∀ e ∈ w.log, ∀ h r, e.did = ⟨.redeemTicket h r,.ok 1⟩ →
      (∃ d ∈ w.log, ∃ a r', d.did.1 = .insertTicket h a r') ∧ ∀ row ∈ w.shared.tickets, row.hash ≠ h := by
  refine Machine.invariant (I := fun w => ∀ e ∈ w.log, ∀ h r, e.did = ⟨.redeemTicket h r,.ok 1⟩ →
    (∃ d ∈ w.log, ∃ a r', d.did.1 = .insertTicket h a r') ∧ ∀ row ∈ w.shared.tickets, row.hash ≠ h)
    ?_ ?_ ?_ ?_ reach
  · intro e member; simp [Machine.initial] at member
  · intro w c _ _ ih; exact ih
  · intro w i c o next before meets found ready ih e member h r did
    have after := Machine.reachPerformed before meets found ready
    rcases Machine.memPerformed.mp member with old | new
    · obtain ⟨⟨d,inside,a,r',insert⟩,gone⟩ := ih e old h r did
      refine ⟨⟨d,Machine.stillThere inside,a,r',insert⟩,fun row kept same => ?_⟩
      rcases ticketRows prim o w.shared kept with there | ⟨again,_⟩
      · exact gone row there same
      · -- the hash would be inserted a second time
        subst same
        have twice := insertTicketOnce fresh after (Machine.stillThere inside)
          Machine.happened insert again
        have early := Machine.olderPosition before inside
        rw [twice] at early
        exact Nat.lt_irrefl _ early
    · subst new
      injection did with op resp
      subst op
      have hit : (exec prim (.redeemTicket h r) w.shared).1 = .ok 1 := eq_of_heq resp
      obtain ⟨row,there,hash,_⟩ := redeemFinds hit
      obtain ⟨d,inside,insert,_⟩ := ticketOrigin empty before row there
      rw [hash] at insert
      exact ⟨⟨d,Machine.stillThere inside,_,_,insert⟩,redeemRemoves hit⟩
  · intro w e _ _ ih; exact ih

theorem redeemedOnce (empty : s.tickets = .empty) (reach : (machine prim).Reach ok s w) {e e' h r r'}
    (left : e ∈ w.log) (right : e' ∈ w.log)
    (one : e.did = ⟨.redeemTicket h r,.ok 1⟩) (other : e'.did = ⟨.redeemTicket h r',.ok 1⟩) :
    ¬ e.pos < e'.pos := by
  intro less
  obtain ⟨v,reached,_,shared,history,resp,_,_⟩ := Machine.moment reach right
  have gone := (redeemedGone fresh empty reached e ((history e).mpr ⟨left,less⟩) h r one).2
  have hit : (exec prim (.redeemTicket h r') e'.before).1 = .ok 1 := by
    rw [other] at resp
    exact resp.symm
  obtain ⟨row,there,hash,_⟩ := redeemFinds hit
  exact gone row (by rw [shared]; exact there) hash

end Runs

/- The one operation of a successful `redeem`. -/
theorem redeemDids {prim : Primitives} {k relayId : String} {dids}
    (path : Path (program prim (.redeem k relayId)) dids (.ret (.ok (.redeemed true)))) :
    dids = [⟨.redeemTicket (prim.digest k) relayId,.ok 1⟩] := by
  obtain ⟨success,same,path⟩ := pathAnswer path
  cases Reply.redeemed.inj same
  rw [redeemTree] at path
  obtain ⟨_,wrong⟩ | ⟨_,path⟩ := pathIte path
  · cases wrong
  · obtain ⟨r,rest,done,later⟩ := pathReturned path
    obtain ⟨rows,rfl,last⟩ := pathAfterwards later
    obtain ⟨rfl,one⟩ := pathRet.mp last
    have single : rows = 1 := by simpa using one
    rw [done,single]

/- A ticket admits once, and only to the relay it was minted for, within its minute and while
the session behind it is alive, whatever ran between the statements of the calls. -/
theorem ticketsRedeemOnceOnLiveSessions {prim : Primitives} {now : Int} {w : World}
    (reach : (machine prim).Reach (Fresh prim) (Store.init now) w) :
    (∀ i j k r r', w.Answered i (.redeem k r) (.ok (.redeemed true)) →
      w.Answered j (.redeem k r') (.ok (.redeemed true)) → i = j) ∧
    ∀ i k r, w.Answered i (.redeem k r) (.ok (.redeemed true)) →
      ∃ e ∈ w.log, e.task = i ∧ e.did = ⟨.redeemTicket (prim.digest k) r,.ok 1⟩ ∧
      ∃ d ∈ w.log, ∃ token minted, d.call = .ticket token r minted ∧ minted.text = k ∧
        d.did.1 = .insertTicket (prim.digest k) (prim.digest token) r ∧
        d.pos < e.pos ∧ e.before.now < d.before.now + 60 ∧ SessionLive prim e.before token := by
  have empty : (Store.init now).tickets = .empty := rfl
  have event : ∀ i k r, w.Answered i (.redeem k r) (.ok (.redeemed true)) →
      ∃ e ∈ w.log, e.task = i ∧ e.did = ⟨.redeemTicket (prim.digest k) r,.ok 1⟩ := by
    rintro i k r ⟨t,found,call,done⟩
    have path := Machine.taskPath reach found
    rw [call,done] at path
    exact didsOfMember.mp (by rw [redeemDids path]; exact List.mem_cons_self)
  constructor
  · intro i j k r r' left right
    obtain ⟨e,inside,rfl,did⟩ := event i k r left
    obtain ⟨e',inside',rfl,did'⟩ := event j k r' right
    have before := redeemedOnce (fun _ _ h => h) empty reach inside inside' did did'
    have after := redeemedOnce (fun _ _ h => h) empty reach inside' inside did' did
    rw [Machine.samePosition reach inside inside' (by omega)]
  · intro i k r redeemed
    obtain ⟨e,inside,rfl,did⟩ := event i k r redeemed
    obtain ⟨v,reached,_,shared,history,resp,_,_⟩ := Machine.moment reach inside
    have hit : (exec prim (.redeemTicket (prim.digest k) r) e.before).1 = .ok 1 := by
      rw [did] at resp
      exact resp.symm
    obtain ⟨row,there,hash,relay,alive,session⟩ := redeemFinds hit
    rw [← shared] at there
    obtain ⟨d,early,insert,expires⟩ := ticketOrigin empty reached row there
    obtain ⟨kept,less⟩ := (history d).mp early
    have belongs := eventBelongs reach kept
    rw [insert] at belongs
    obtain ⟨token,minted,call,text,sessionHash⟩ := belongs
    rw [hash] at text
    rw [hash,sessionHash,relay] at insert
    rw [sessionHash] at session
    rw [relay] at call
    -- the redeemed string is the minted one: both are secrets of this run
    have minter := Machine.eventTask reach d kept
    have same : minted.text = k := by
      obtain ⟨t,found,called⟩ := minter
      obtain ⟨u,found',called',_⟩ := redeemed
      refine noCollision (fun _ _ h => h) reach t.call (List.mem_of_getElem? (callAt found)) u.call
        (List.mem_of_getElem? (callAt found')) _ ?_ _ ?_ text.symm
      · simp [called,call,Call.secrets]
      · simp [called',Call.secrets]
    exact ⟨e,inside,rfl,did,d,kept,token,minted,call,same,insert,less,
      by rw [← expires]; exact alive,memLiveHashes.mp session⟩

def testerToken : Minted := mintedA
def testerTicket : Minted := mintedB

/- A login, a ticket for relay-1 and its redemption 59 seconds later. -/
def testerActs : List (Act Call Nat) := [
  .start (.createUser "tester" "long-test-password" "salt"),.advance 0,
  .start (.login "tester" "long-test-password" testerToken),.advance 1,.advance 1,.advance 1,.advance 1,
  .start (.ticket testerToken.text "relay-1" testerTicket),.advance 2,.advance 2,.advance 2,.env 59,
  .start (.redeem testerTicket.text "relay-1"),.advance 3]

theorem testerTicketRedeemed : ∃ w, (machine plain).Reach (Fresh plain) (Store.init 100) w ∧
    w.Answered 3 (.redeem testerTicket.text "relay-1") (.ok (.redeemed true)) ∧
    (∀ j r, w.Answered j (.redeem testerTicket.text r) (.ok (.redeemed true)) → 3 = j) ∧
    ∃ e ∈ w.log, e.task = 3 ∧ e.did = ⟨.redeemTicket (plain.digest testerTicket.text) "relay-1",.ok 1⟩ ∧
      ∃ d ∈ w.log, ∃ token minted, d.call = .ticket token "relay-1" minted ∧
        minted.text = testerTicket.text ∧
        d.did.1 = .insertTicket (plain.digest testerTicket.text) (plain.digest token) "relay-1" ∧
        d.pos < e.pos ∧ e.before.now < d.before.now + 60 ∧ SessionLive plain e.before token := by
  obtain ⟨w,reach,done⟩ := Machine.reachWith (Fresh plain) (fun w a => decide (Fresh plain w a))
    (fun _ _ => of_decide_eq_true) testerActs
    (P := fun w => w.answer 3 = some (.redeem testerTicket.text "relay-1",some (.ok (.redeemed true))))
    (m := machine plain) (s := Store.init 100) (by decide +kernel)
  have redeemed := answered (of_decide_eq_true done)
  obtain ⟨once,alive⟩ := ticketsRedeemOnceOnLiveSessions reach
  exact ⟨w,reach,redeemed,fun j r again => once 3 j _ _ _ redeemed again,alive 3 _ _ redeemed⟩

end OpenuuServer.AccountTickets
