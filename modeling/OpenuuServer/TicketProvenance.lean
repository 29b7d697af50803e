import OpenuuServer.HandlerAuthority

/-! Tickets from minting to redemption. hbbs and the account service mint them, hbbr redeems them in
the same database; whatever a redeemed ticket admits to a relay goes back to a request for that relay
by somebody who was logged in then and still is. -/
namespace OpenuuServer.TicketProvenance
open AtomicProgram RendezvousMessages RendezvousServer HandlerAuthority UniqueTable
open PeerRegistry (Bytes)
open AccountStore (Store RelayTicket Primitives)
open AccountTickets (SessionLive)

/- A row of `relay_tickets` stays or is inserted; a redeemed one does not stay. -/
theorem ticketStep (prim : Primitives) (o : AccountStore.Op) (s : Store) {row : RelayTicket}
    (member : row ∈ (AccountStore.exec prim o s).2.tickets) :
    (row ∈ s.tickets ∧ ∀ r, (⟨o,(AccountStore.exec prim o s).1⟩ : Did AccountStore.Op AccountStore.Resp) ≠
      ⟨.redeemTicket row.hash r,.ok 1⟩) ∨
    (⟨o,(AccountStore.exec prim o s).1⟩ : Did AccountStore.Op AccountStore.Resp) =
      ⟨.insertTicket row.hash row.sessionHash row.relayId,.ok ()⟩ ∧ row.expires = s.now + 60 := by
  by_cases minting : ∃ h sessionHash relayId, o = .insertTicket h sessionHash relayId
  · obtain ⟨h,sessionHash,relayId,rfl⟩ := minting
    simp only [AccountStore.exec,AccountStore.inserted] at member ⊢
    split at member
    · rename_i t added
      rcases (memInsert added).mp member with old | rfl
      · exact .inl ⟨old,fun r wrong => by cases wrong⟩
      · exact .inr ⟨rfl,rfl⟩
    · exact .inl ⟨member,fun r wrong => by cases wrong⟩
  · rcases AccountTickets.ticketRows prim o s member with old | ⟨insert,_⟩
    · refine .inl ⟨old,fun r did => ?_⟩
      obtain rfl : o = .redeemTicket row.hash r := congrArg Sigma.fst did
      have hit : (AccountStore.exec prim (.redeemTicket row.hash r) s).1 = .ok 1 := eq_of_heq (Sigma.mk.inj did).2
      exact AccountTickets.redeemRemoves hit row member rfl
    · exact absurd ⟨_,_,_,insert⟩ minting

def Redeems (h : Bytes) (d : Did Op Resp) : Prop := ∃ r, d = ⟨.account (.redeemTicket h r),.ok 1⟩

/- The row was put into the table by this event, and its hash was not redeemed since. -/
structure Issued (w : World) (row : RelayTicket) (d : Event Op Resp Call Server) : Prop where
  inserted : d ∈ w.log ∧ d.did = ⟨.account (.insertTicket row.hash row.sessionHash row.relayId),.ok ()⟩
  expires : row.expires = d.before.accounts.now + 60
  unused : ∀ b ∈ w.log, d.pos < b.pos → ¬ Redeems row.hash b.did

/- Whose request a ticket for the relay was minted on: a client's own one, a relay request, or a relay
that a peer started for a controller. -/
def MintedFor (lib : Library) (w : World) (d : Event Op Resp Call Server) (token r : String) : Prop :=
  (∃ minted, d.call = .account (.ticket token r minted)) ∨
  (∃ conn config rf, Handles lib w d conn config (.requestRelay rf) ∧ token = rf.token ∧ r = rf.uuid) ∨
  ∃ conn config rr b a, Handles lib w d conn config (.relayResponse rr) ∧ r = rr.uuid ∧ OnBehalf lib w d rr token b a

/- What lies behind a redeemed ticket. -/
structure Admitted (lib : Library) (w : World) (e : Event Op Resp Call Server) (h : Bytes) (r : String)
    (d : Event Op Resp Call Server) (token : String) : Prop where
  minted : d ∈ w.log ∧ d.pos < e.pos ∧ d.did = ⟨.account (.insertTicket h (lib.prim.digest token) r),.ok ()⟩
  minute : e.before.accounts.now < d.before.accounts.now + 60
  once : ∀ b ∈ w.log, d.pos < b.pos → b.pos < e.pos → ¬ Redeems h b.did
  entitled : ∃ a, Earlier w d a ∧ SessionLive lib.prim a.before.accounts token
  live : SessionLive lib.prim e.before.accounts token
  reason : MintedFor lib w d token r

section Runs
variable {lib : Library} {expired : Nat → Nat} {key : String} {ok : World → Act Call Env → Prop} {s : Server} {w : World}

theorem accountsApart {o : Op} (other : ∀ a, o ≠ .account a) (s : Server) : (exec lib expired o s).2.accounts = s.accounts := by
  cases o with
  | account a => exact absurd rfl (other a)
  | _ =>
    simp only [exec,Server.relink]
    repeat' split
    all_goals rfl

theorem rowsTracked : HistoryFolds.Tracked (machine lib expired key) (fun s row => row ∈ s.accounts.tickets)
    (fun d s row => d = ⟨.account (.insertTicket row.hash row.sessionHash row.relayId),.ok ()⟩ ∧
      row.expires = s.accounts.now + 60) fun d row => Redeems row.hash d where
  op o s row member := by
    by_cases own : ∃ a, o = .account a
    · obtain ⟨a,rfl⟩ := own
      rcases ticketStep lib.prim a s.accounts member with ⟨old,other⟩ | ⟨did,expires⟩
      · refine .inl ⟨old,?_⟩
        rintro ⟨r,did⟩
        refine other r ?_
        obtain rfl : a = .redeemTicket row.hash r := Op.account.inj (congrArg Sigma.fst did)
        exact Sigma.ext rfl (Sigma.mk.inj did).2
      · obtain rfl : a = .insertTicket row.hash row.sessionHash row.relayId := congrArg Sigma.fst did
        exact .inr ⟨Sigma.ext rfl (Sigma.mk.inj did).2,expires⟩
    · have same : (exec lib expired o s).2.accounts = s.accounts := accountsApart (fun a h => own ⟨a,h⟩) _
      have old : row ∈ (exec lib expired o s).2.accounts.tickets := member
      rw [same] at old
      refine .inl ⟨old,?_⟩
      rintro ⟨r,did⟩
      exact own ⟨_,congrArg Sigma.fst did⟩
  env e s row member := by cases e <;> exact member

theorem rowsIssued (empty : s.accounts.tickets = .empty) (reach : (machine lib expired key).Reach ok s w) :
    ∀ row ∈ w.shared.accounts.tickets, ∃ d, Issued w row d := by
  intro row member
  rcases HistoryFolds.tracked rowsTracked reach row member with ⟨first,_⟩ | ⟨d,inside,⟨did,expires⟩,unused⟩
  · rw [empty] at first
    exact absurd first notMemEmpty
  · exact ⟨d,⟨inside,did⟩,expires,unused⟩

end Runs

end OpenuuServer.TicketProvenance
