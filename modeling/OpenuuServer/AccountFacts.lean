import OpenuuServer.AccountCalls

/-! What has happened to the accounts, as a list of facts, and how the rows of the store mirror
it: the store keeps only current rows and drops some of them on other occasions, so it
agrees with the facts but for what has expired. -/
namespace OpenuuServer.AccountFacts
open AtomicProgram UniqueTable AccountStore AccountCalls

section Since
variable {ε : Type} {start stop : ε → Prop} {past : List ε} {x : ε}

/- It started, and nothing since has stopped it. -/
def Since (start stop : ε → Prop) (past : List ε) : Prop :=
  ∃ before e after, past = before ++ e :: after ∧ start e ∧ ∀ d ∈ after, ¬ stop d

theorem notSinceNil : ¬ Since start stop [] := by
  rintro ⟨before,e,after,same,_⟩
  simp at same

theorem sinceLater : Since start stop (past ++ [x]) ↔ start x ∨ Since start stop past ∧ ¬ stop x := by
  constructor
  · rintro ⟨before,e,after,same,starts,still⟩
    rcases List.eq_nil_or_concat after with rfl | ⟨rest,y,rfl⟩
    · obtain ⟨_,last⟩ := List.append_inj' same rfl
      cases last
      exact .inl starts
    · rw [List.concat_eq_append,← List.cons_append,← List.append_assoc] at same
      obtain ⟨shorter,last⟩ := List.append_inj' same rfl
      cases last
      simp only [List.concat_eq_append,List.mem_append,List.mem_singleton] at still
      exact .inr ⟨⟨before,e,rest,shorter,starts,fun d inside => still d (.inl inside)⟩,still x (.inr rfl)⟩
  · rintro (starts | ⟨⟨before,e,after,rfl,starts,still⟩,goes⟩)
    · exact ⟨past,x,[],rfl,starts,by simp⟩
    · refine ⟨before,e,after ++ [x],by simp,starts,fun d inside => ?_⟩
      rcases List.mem_append.mp inside with old | new
      · exact still d old
      · cases List.mem_singleton.mp new
        exact goes

theorem sinceStarted (since : Since start stop past) : ∃ e ∈ past, start e := by
  obtain ⟨before,e,after,rfl,starts,_⟩ := since
  exact ⟨e,by simp,starts⟩

end Since

/- What a call has brought about. -/
inductive Fact where
  | created (name password : String)
  | passwordSet (name password : String)
  | enabledSet (name : String) (enabled : Bool)
  | deleted (name : String)
  | issued (token name : String) (time : Int)
  | revoked (token : String)
  | minted (ticket relayId token : String) (time : Int)
  | redeemed (ticket : String)
  deriving DecidableEq

/- The time of an entry is what the clock showed when the call returned. -/
structure Entry where
  call : Call
  answer : Answer
  time : Int

def Entry.fact (e : Entry) : Option Fact :=
  match e.call,e.answer with
  | .createUser name password _,.ok .done => some (.created name password)
  | .setPassword name password _,.ok .done => some (.passwordSet name password)
  | .setEnabled name enabled,.ok .done => some (.enabledSet name enabled)
  | .deleteUser name,.ok .done => some (.deleted name)
  | .login name _ _,.ok (.minted (some token)) => some (.issued token name e.time)
  | .revoke token,.ok .done => some (.revoked token)
  | .ticket token relayId _,.ok (.minted (some text)) => some (.minted text relayId token e.time)
  | .redeem text _,.ok (.redeemed true) => some (.redeemed text)
  | _,_ => none

def facts (past : List Entry) : List Fact := past.filterMap Entry.fact

/- The password and whether the account is enabled. -/
def Fact.change (name : String) (a : Option (String × Bool)) : Fact → Option (String × Bool)
  | .created n p => if n = name then some (p,true) else a
  | .passwordSet n p => if n = name then a.map fun a => (p,a.2) else a
  | .enabledSet n b => if n = name then a.map fun a => (a.1,b) else a
  | .deleted n => if n = name then none else a
  | _ => a

def account (f : List Fact) (name : String) : Option (String × Bool) := f.foldl (Fact.change name) none

def Fact.Revokes (name token : String) : Fact → Prop
  | .revoked t => t = token
  | .passwordSet n _ | .deleted n | .enabledSet n false => n = name
  | _ => False

def Issued (f : List Fact) (name token : String) (time : Int) : Prop :=
  Since (fun e => e = .issued token name time) (Fact.Revokes name token) f

def Unredeemed (f : List Fact) (ticket relayId token : String) (time : Int) : Prop :=
  Since (fun e => e = .minted ticket relayId token time) (fun e => e = .redeemed ticket) f

def Accepts (f : List Fact) (now : Int) (name token : String) : Prop :=
  (∃ time, Issued f name token time ∧ now < time + 86400) ∧ ∃ password, account f name = some (password,true)

def Redeemable (f : List Fact) (now : Int) (ticket relayId : String) : Prop :=
  ∃ token time, Unredeemed f ticket relayId token time ∧ now < time + 60 ∧ ∃ name, Accepts f now name token

/- The answer that the facts dictate, at the clock of the first and of the last statement. -/
def Dictated (f : List Fact) (first last : Int) (a : Answer) : Call → Prop
  | .createUser name password _ => a = .ok .done ↔
    validName name = true ∧ 12 ≤ password.utf8ByteSize ∧ password.utf8ByteSize ≤ 72 ∧ account f name = none
  | .setPassword name password _ => a = .ok .done ↔
    12 ≤ password.utf8ByteSize ∧ password.utf8ByteSize ≤ 72 ∧ account f name ≠ none
  | .setEnabled name _ => a = .ok .done ↔ account f name ≠ none
  | .deleteUser name => a = .ok .done ↔ account f name ≠ none
  | .user token => ∃ owner, a = .ok (.name owner) ∧ ∀ name, owner = some name ↔ Accepts f last name token
  | .login name password minted => a = .ok (.minted (some minted.text)) ∧ account f name = some (password,true) ∨
    a = .ok (.minted none) ∧ account f name ≠ some (password,true)
  | .ticket token relayId minted =>
    let granted := relayId ≠ "" ∧ relayId.utf8ByteSize ≤ 128 ∧ ∃ name, Accepts f first name token
    a = .ok (.minted (some minted.text)) ∧ granted ∨ a = .ok (.minted none) ∧ ¬ granted
  | .redeem text relayId => ∃ success, a = .ok (.redeemed success) ∧ (success = true ↔ Redeemable f last text relayId)
  | .revoke _ => a = .ok .done

def elapse (seconds : Nat) (s : Store) : Store := { s with now := s.now + seconds }

/- bcrypt accepts exactly the hashed password, at least under the salt of the call. -/
def Exact (prim : Primitives) (salt : String) : Prop :=
  ∀ p q, prim.bcryptVerify p (prim.bcryptHash q salt) = true ↔ p = q

section Facts
variable {f : List Fact} {x : Fact} {name token ticket relayId : String} {time : Int}

@[simp] theorem accountLater : account (f ++ [x]) name = x.change name (account f name) := by
  simp [account]

@[simp] theorem issuedLater : Issued (f ++ [x]) name token time ↔
    x = .issued token name time ∨ Issued f name token time ∧ ¬ x.Revokes name token := sinceLater

@[simp] theorem unredeemedLater : Unredeemed (f ++ [x]) ticket relayId token time ↔
    x = .minted ticket relayId token time ∨ Unredeemed f ticket relayId token time ∧ ¬ x = .redeemed ticket := sinceLater

theorem issuedFact (issued : Issued f name token time) : .issued token name time ∈ f := by
  obtain ⟨e,inside,rfl⟩ := sinceStarted issued
  exact inside

theorem mintedFact (minted : Unredeemed f ticket relayId token time) : .minted ticket relayId token time ∈ f := by
  obtain ⟨e,inside,rfl⟩ := sinceStarted minted
  exact inside

end Facts

def Fact.secrets : Fact → List String
  | .issued token _ _ | .revoked token => [token]
  | .minted text _ token _ => [text,token]
  | .redeemed text => [text]
  | _ => []

def Fact.mints : Fact → List String
  | .issued token _ _ => [token]
  | .minted text _ _ _ => [text]
  | _ => []

/- The accounts are those of the facts, each with a hash of its password. -/
structure Listed (prim : Primitives) (f : List Fact) (accounts : Table Account fun a b => a.name = b.name) : Prop where
  known : ∀ name p b, account f name = some (p,b) → ∃ salt, Exact prim salt ∧ ⟨name,prim.bcryptHash p salt,b⟩ ∈ accounts
  unknown : ∀ name, account f name = none → ∀ a ∈ accounts, a.name ≠ name
  sizes : ∀ name p b, account f name = some (p,b) → name.utf8ByteSize ≤ 64 ∧ p.utf8ByteSize ≤ 72

/- The rows say what the facts say, but for what has expired. -/
structure Mirrors (prim : Primitives) (f : List Fact) (s : Store) : Prop where
  accounts : Listed prim f s.accounts
  sessions : ∀ row ∈ s.sessions, ∃ token time, Issued f row.name token time ∧ row = ⟨prim.digest token,row.name,time + 86400⟩
  held : ∀ name token time, Issued f name token time → s.now < time + 86400 →
    ⟨prim.digest token,name,time + 86400⟩ ∈ s.sessions
  owned : ∀ name token time, Issued f name token time → account f name ≠ none
  tickets : ∀ k ∈ s.tickets, ∃ text token time, Unredeemed f text k.relayId token time ∧
    k = ⟨prim.digest text,prim.digest token,k.relayId,time + 60⟩
  kept : ∀ text relayId token time name since, Unredeemed f text relayId token time → s.now < time + 60 →
    Issued f name token since → s.now < since + 86400 → ⟨prim.digest text,prim.digest token,relayId,time + 60⟩ ∈ s.tickets
  source : ∀ text relayId token time, .minted text relayId token time ∈ f → ∃ name since, .issued token name since ∈ f
  lengths : ∀ x ∈ f, ∀ y ∈ x.mints, y.utf8ByteSize = 64

/- The strings of the facts and of the call at hand do not collide. -/
def Apart (prim : Primitives) (f : List Fact) (c : Call) : Prop :=
  ∀ x ∈ f.flatMap Fact.secrets ++ c.secrets, ∀ y ∈ f.flatMap Fact.secrets ++ c.secrets,
    prim.digest x = prim.digest y → x = y

section Rows
variable {prim : Primitives} {f : List Fact} {s : Store}

/- Nothing that the facts speak of is touched. -/
structure Still (s s' : Store) : Prop where
  accounts : s'.accounts = s.accounts
  sessions : s'.sessions = s.sessions
  tickets : s'.tickets = s.tickets
  later : s.now ≤ s'.now

theorem Still.refl (s : Store) : Still s s := ⟨rfl,rfl,rfl,Int.le_refl _⟩

theorem Still.trans {s t u : Store} (first : Still s t) (second : Still t u) : Still s u :=
  ⟨second.accounts.trans first.accounts,second.sessions.trans first.sessions,second.tickets.trans first.tickets,
    Int.le_trans first.later second.later⟩

theorem elapseStill (seconds : Nat) (s : Store) : Still s (elapse seconds s) :=
  ⟨rfl,rfl,rfl,by simp only [elapse]; omega⟩

theorem mirrorsStill {s' : Store} (mirrors : Mirrors prim f s) (still : Still s s') : Mirrors prim f s' := by
  obtain ⟨accounts,sessions,tickets,later⟩ := still
  constructor
  · rw [accounts]; exact mirrors.accounts
  · rw [sessions]; exact mirrors.sessions
  · intro name token time issued alive
    rw [sessions]
    exact mirrors.held _ _ _ issued (by omega)
  · exact mirrors.owned
  · rw [tickets]; exact mirrors.tickets
  · intro text relayId token time name since minted young issued alive
    rw [tickets]
    exact mirrors.kept _ _ _ _ _ _ minted (by omega) issued (by omega)
  · exact mirrors.source
  · exact mirrors.lengths

theorem mirrorsElapse (mirrors : Mirrors prim f s) (seconds : Nat) : Mirrors prim f (elapse seconds s) :=
  mirrorsStill mirrors (elapseStill seconds s)

/- The row of an account is the one that the facts tell of. -/
theorem accountRow (mirrors : Mirrors prim f s) {a : Account} (inside : a ∈ s.accounts) :
    ∃ p salt, Exact prim salt ∧ account f a.name = some (p,a.enabled) ∧ a.passwordHash = prim.bcryptHash p salt := by
  cases there : account f a.name with
  | none => exact absurd rfl (mirrors.accounts.unknown _ there a inside)
  | some pair =>
    obtain ⟨p,b⟩ := pair
    obtain ⟨salt,exact,row⟩ := mirrors.accounts.known _ _ _ there
    have same := sameRow (fun _ _ => Eq.symm) inside row rfl
    rw [same]
    exact ⟨p,salt,exact,rfl,rfl⟩

theorem enabledIff (mirrors : Mirrors prim f s) {name : String} :
    (∃ a ∈ s.accounts, a.name = name ∧ a.enabled = true) ↔ ∃ p, account f name = some (p,true) := by
  constructor
  · rintro ⟨a,inside,rfl,enabled⟩
    obtain ⟨p,_,_,there,_⟩ := accountRow mirrors inside
    exact ⟨p,by rw [there,enabled]⟩
  · rintro ⟨p,there⟩
    obtain ⟨salt,_,row⟩ := mirrors.accounts.known _ _ _ there
    exact ⟨_,row,rfl,rfl⟩

/- A live session is one that the facts accept. -/
theorem liveIff (mirrors : Mirrors prim f s) {c : Call} (apart : Apart prim f c) {token name : String}
    (mine : token ∈ f.flatMap Fact.secrets ++ c.secrets) :
    (∃ row ∈ s.sessions, row.tokenHash = prim.digest token ∧ row.name = name ∧ s.now < row.expires ∧
      ∃ a ∈ s.accounts, a.name = name ∧ a.enabled = true) ↔ Accepts f s.now name token := by
  rw [Accepts,← enabledIff mirrors]
  constructor
  · rintro ⟨row,inside,hash,rfl,alive,enabled⟩
    obtain ⟨token',time,issued,same⟩ := mirrors.sessions row inside
    have known : token' ∈ f.flatMap Fact.secrets ++ c.secrets :=
      List.mem_append_left _ (List.mem_flatMap.mpr ⟨_,issuedFact issued,by simp [Fact.secrets]⟩)
    have equal : token' = token := apart _ known _ mine (by rw [← hash,same])
    subst equal
    exact ⟨⟨time,issued,by rw [same] at alive; exact alive⟩,enabled⟩
  · rintro ⟨⟨time,issued,alive⟩,enabled⟩
    exact ⟨_,mirrors.held _ _ _ issued alive,rfl,rfl,alive,enabled⟩

/- `SELECT a.name FROM account_sessions s JOIN accounts a ...` finds the owner of a live session. -/
theorem selectUserIs {h : Bytes} {name : String} :
    ((s.joined.find? fun pair => pair.1.tokenHash = h && s.live pair).map fun pair => pair.2.name) = some name ↔
      ∃ row ∈ s.sessions, row.tokenHash = h ∧ row.name = name ∧ s.now < row.expires ∧
        ∃ a ∈ s.accounts, a.name = name ∧ a.enabled = true := by
  constructor
  · intro found
    obtain ⟨⟨row,a⟩,here,rfl⟩ := Option.map_eq_some_iff.mp found
    have hit := List.find?_some here
    obtain ⟨inside,member,same⟩ := memJoined.mp (List.mem_of_find?_eq_some here)
    simp only [Store.live,Bool.and_eq_true,decide_eq_true_eq] at hit
    exact ⟨row,inside,hit.1,same.symm,hit.2.1,a,member,rfl,hit.2.2⟩
  · rintro ⟨row,inside,rfl,rfl,alive,a,member,same,enabled⟩
    have joined : (row,a) ∈ s.joined := memJoined.mpr ⟨inside,member,same⟩
    cases here : s.joined.find? fun pair => pair.1.tokenHash = row.tokenHash && s.live pair with
    | none =>
      have missed := List.find?_eq_none.mp here (row,a) joined
      simp [Store.live,alive,enabled] at missed
    | some pair =>
      obtain ⟨row',a'⟩ := pair
      obtain ⟨inside',member',same'⟩ := memJoined.mp (List.mem_of_find?_eq_some here)
      have hit := List.find?_some here
      simp only [Bool.and_eq_true,decide_eq_true_eq] at hit
      have one := sameRow (fun _ _ => Eq.symm) inside' inside hit.1
      rw [Option.map_some,same',one]

end Rows

section Statements
variable {prim : Primitives} {f : List Fact} {s : Store}

/- The string is none of those that the facts tell of. -/
def New (prim : Primitives) (f : List Fact) (text : String) : Prop :=
  ∀ x ∈ f, ∀ y ∈ x.mints, prim.digest y ≠ prim.digest text

theorem listedStill {x : Fact} {accounts} (listed : Listed prim f accounts) (still : ∀ name a, x.change name a = a) :
    Listed prim (f ++ [x]) accounts := by
  have same : ∀ name, account (f ++ [x]) name = account f name := fun name => accountLater.trans (still _ _)
  exact ⟨fun name p b there => listed.known name p b (by rw [← same]; exact there),
    fun name there => listed.unknown name (by rw [← same]; exact there),
    fun name p b there => listed.sizes name p b (by rw [← same]; exact there)⟩

theorem insertedSome {β : Type} {put : β → Store} {t : Option β} {t' : β} (done : t = some t') :
    inserted s t put = (.ok (),put t') := by
  subst done
  rfl

theorem mirrorsPurgeSessions (mirrors : Mirrors prim f s) : Mirrors prim f (exec prim .purgeSessions s).2 where
  accounts := mirrors.accounts
  sessions := fun row inside => mirrors.sessions row (memDelete.mp inside).1
  held := fun name token time issued alive => by
    rw [execNow] at alive
    have there := mirrors.held name token time issued alive
    exact memDelete.mpr ⟨there,by simp only [decide_eq_false_iff_not]; omega⟩
  owned := mirrors.owned
  tickets := mirrors.tickets
  kept := mirrors.kept
  source := mirrors.source
  lengths := mirrors.lengths

theorem mirrorsPurgeTickets (mirrors : Mirrors prim f s) : Mirrors prim f (exec prim .purgeTickets s).2 where
  accounts := mirrors.accounts
  sessions := mirrors.sessions
  held := mirrors.held
  owned := mirrors.owned
  tickets := fun k inside => mirrors.tickets k (memDelete.mp inside).1
  kept := fun text relayId token time name since minted fresh issued alive => by
    rw [execNow] at fresh alive
    have there := mirrors.kept text relayId token time name since minted fresh issued alive
    exact memDelete.mpr ⟨there,by simp only [decide_eq_false_iff_not]; omega⟩
  source := mirrors.source
  lengths := mirrors.lengths

/- A new session, whose token no ticket can have been asked with. -/
theorem mirrorsInsertSession (mirrors : Mirrors prim f s) {token : Minted} {name : String} (new : New prim f token.text)
    (known : account f name ≠ none) : (exec prim (.insertSession (prim.digest token.text) name) s).1 = .ok () ∧
      Mirrors prim (f ++ [.issued token.text name s.now]) (exec prim (.insertSession (prim.digest token.text) name) s).2 := by
  have free : (s.sessions.insert ⟨prim.digest token.text,name,s.now + 86400⟩).isSome = true := by
    refine insertIsSome.mpr fun row inside clash => ?_
    obtain ⟨token',time,issued,same⟩ := mirrors.sessions row inside
    rw [same] at clash
    exact new _ (issuedFact issued) token' (by simp [Fact.mints]) clash
  obtain ⟨t,done⟩ := Option.isSome_iff_exists.mp free
  have run : exec prim (.insertSession (prim.digest token.text) name) s = (.ok (),{ s with sessions := t }) := insertedSome done
  rw [run]
  have unasked : ∀ text relayId time, ¬ Unredeemed f text relayId token.text time := by
    intro text relayId time minted
    obtain ⟨name',since,there⟩ := mirrors.source _ _ _ _ (mintedFact minted)
    exact new _ there token.text (by simp [Fact.mints]) rfl
  have rows := fun row => memInsert (a := row) done
  refine ⟨rfl,listedStill mirrors.accounts fun _ _ => rfl,fun row inside => ?_,fun name' token' time issued alive => ?_,
    fun name' token' time issued => ?_,fun k inside => ?_,
    fun text relayId token' time name' since minted young issued alive => ?_,fun text relayId token' time minted => ?_,?_⟩
  · rcases (rows row).mp inside with old | rfl
    · obtain ⟨token',time,issued,same⟩ := mirrors.sessions row old
      exact ⟨token',time,issuedLater.mpr (.inr ⟨issued,id⟩),same⟩
    · exact ⟨token.text,s.now,issuedLater.mpr (.inl rfl),rfl⟩
  · rcases issuedLater.mp issued with new | ⟨old,_⟩
    · cases new
      exact (rows _).mpr (.inr rfl)
    · exact (rows _).mpr (.inl (mirrors.held _ _ _ old alive))
  · rcases issuedLater.mp issued with new | ⟨old,_⟩
    · cases new
      rw [accountLater]
      exact known
    · rw [accountLater]
      exact mirrors.owned _ _ _ old
  · obtain ⟨text,token',time,minted,same⟩ := mirrors.tickets k inside
    exact ⟨text,token',time,unredeemedLater.mpr (.inr ⟨minted,by simp⟩),same⟩
  · obtain wrong | ⟨old,_⟩ := unredeemedLater.mp minted
    · cases wrong
    rcases issuedLater.mp issued with new | ⟨held,_⟩
    · cases new
      exact absurd old (unasked _ _ _)
    · exact mirrors.kept _ _ _ _ _ _ old young held alive
  · obtain old | wrong := List.mem_append.mp minted
    · obtain ⟨name',since,there⟩ := mirrors.source _ _ _ _ old
      exact ⟨name',since,List.mem_append_left _ there⟩
    · simp at wrong
  · intro x inside y mine
    rcases List.mem_append.mp inside with old | last
    · exact mirrors.lengths x old y mine
    · cases List.mem_singleton.mp last
      cases List.mem_singleton.mp mine
      exact token.length

theorem mirrorsInsertTicket (mirrors : Mirrors prim f s) {text : Minted} {token : String} (relayId : String)
    (new : New prim f text.text)
    (source : ∃ name since, .issued token name since ∈ f) :
    (exec prim (.insertTicket (prim.digest text.text) (prim.digest token) relayId) s).1 = .ok () ∧
      Mirrors prim (f ++ [.minted text.text relayId token s.now])
        (exec prim (.insertTicket (prim.digest text.text) (prim.digest token) relayId) s).2 := by
  have free : (s.tickets.insert ⟨prim.digest text.text,prim.digest token,relayId,s.now + 60⟩).isSome = true := by
    refine insertIsSome.mpr fun k inside clash => ?_
    obtain ⟨text',token',time,minted,same⟩ := mirrors.tickets k inside
    rw [same] at clash
    exact new _ (mintedFact minted) text' (by simp [Fact.mints]) clash
  obtain ⟨t,done⟩ := Option.isSome_iff_exists.mp free
  have run : exec prim (.insertTicket (prim.digest text.text) (prim.digest token) relayId) s = (.ok (),{ s with tickets := t }) :=
    insertedSome done
  rw [run]
  have rows := fun k => memInsert (a := k) done
  have same : ∀ name token' time, Issued (f ++ [.minted text.text relayId token s.now]) name token' time ↔
    Issued f name token' time := by
    intro name token' time
    simp [Fact.Revokes]
  refine ⟨rfl,listedStill mirrors.accounts fun _ _ => rfl,fun row inside => ?_,fun name' token' time issued alive => ?_,
    fun name' token' time issued => ?_,fun k inside => ?_,
    fun text' relayId' token' time name' since minted young issued alive => ?_,fun text' relayId' token' time minted => ?_,?_⟩
  · obtain ⟨token',time,issued,shape⟩ := mirrors.sessions row inside
    exact ⟨token',time,(same _ _ _).mpr issued,shape⟩
  · exact mirrors.held _ _ _ ((same _ _ _).mp issued) alive
  · rw [accountLater]
    exact mirrors.owned _ _ _ ((same _ _ _).mp issued)
  · rcases (rows k).mp inside with old | rfl
    · obtain ⟨text',token',time,minted,shape⟩ := mirrors.tickets k old
      exact ⟨text',token',time,unredeemedLater.mpr (.inr ⟨minted,by simp⟩),shape⟩
    · exact ⟨text.text,token,s.now,unredeemedLater.mpr (.inl rfl),rfl⟩
  · rcases unredeemedLater.mp minted with new | ⟨old,_⟩
    · cases new
      exact (rows _).mpr (.inr rfl)
    · exact (rows _).mpr (.inl (mirrors.kept _ _ _ _ _ _ old young ((same _ _ _).mp issued) alive))
  · rcases List.mem_append.mp minted with old | last
    · obtain ⟨name',since,there⟩ := mirrors.source _ _ _ _ old
      exact ⟨name',since,List.mem_append_left _ there⟩
    · cases List.mem_singleton.mp last
      obtain ⟨name',since,there⟩ := source
      exact ⟨name',since,List.mem_append_left _ there⟩
  · intro x inside y mine
    rcases List.mem_append.mp inside with old | last
    · exact mirrors.lengths x old y mine
    · cases List.mem_singleton.mp last
      cases List.mem_singleton.mp mine
      exact text.length

/- The row a redemption chooses is that of a ticket good for it. -/
theorem chosenIff (mirrors : Mirrors prim f s) {c : Call} (apart : Apart prim f c) {text relayId : String}
    (mine : text ∈ f.flatMap Fact.secrets ++ c.secrets) :
    (∃ k ∈ s.tickets, k.hash = prim.digest text ∧ k.relayId = relayId ∧ s.now < k.expires ∧ k.sessionHash ∈ s.liveHashes) ↔
      Redeemable f s.now text relayId := by
  have known : ∀ text' relayId' token time, Unredeemed f text' relayId' token time →
      text' ∈ f.flatMap Fact.secrets ++ c.secrets ∧ token ∈ f.flatMap Fact.secrets ++ c.secrets := by
    intro text' relayId' token time minted
    exact ⟨List.mem_append_left _ (List.mem_flatMap.mpr ⟨_,mintedFact minted,by simp [Fact.secrets]⟩),
      List.mem_append_left _ (List.mem_flatMap.mpr ⟨_,mintedFact minted,by simp [Fact.secrets]⟩)⟩
  constructor
  · rintro ⟨k,inside,hash,rfl,young,session⟩
    obtain ⟨text',token,time,minted,shape⟩ := mirrors.tickets k inside
    obtain ⟨inF,tokenInF⟩ := known _ _ _ _ minted
    have equal : text' = text := apart _ inF _ mine (by rw [← hash,shape])
    subst equal
    rw [shape] at session young
    obtain ⟨row,there,same,alive,a,member,owner,enabled⟩ := memLiveHashes.mp session
    exact ⟨token,time,minted,young,row.name,
      (liveIff mirrors apart tokenInF).mp ⟨row,there,same,rfl,alive,a,member,owner,enabled⟩⟩
  · rintro ⟨token,time,minted,young,name,accepts⟩
    obtain ⟨_,tokenInF⟩ := known _ _ _ _ minted
    obtain ⟨since,issued,alive⟩ := accepts.1
    have there := mirrors.kept _ _ _ _ _ _ minted young issued alive
    obtain ⟨row,inside,hash,owner,fresh,a,member,same,enabled⟩ := (liveIff mirrors apart tokenInF).mpr accepts
    exact ⟨_,there,rfl,rfl,young,memLiveHashes.mpr ⟨row,inside,hash,fresh,a,member,same.trans owner.symm,enabled⟩⟩

/- What a call may do that mints nothing: the rows only get fewer, and those that go are the ones
that the new fact speaks of. -/
theorem mirrorsAfter (mirrors : Mirrors prim f s) {x : Fact} {s' : Store} (quiet : x.mints = []) (later : s.now ≤ s'.now)
    (accounts : Listed prim (f ++ [x]) s'.accounts)
    (owned : ∀ name token time, Issued f name token time → ¬ x.Revokes name token → x.change name (account f name) ≠ none)
    (fewer : ∀ row ∈ s'.sessions, row ∈ s.sessions)
    (sessions : ∀ name token time, Issued f name token time → ⟨prim.digest token,name,time + 86400⟩ ∈ s.sessions →
      (⟨prim.digest token,name,time + 86400⟩ ∈ s'.sessions ↔ ¬ x.Revokes name token))
    (fewer' : ∀ k ∈ s'.tickets, k ∈ s.tickets)
    (gone : ∀ text relayId token time, Unredeemed f text relayId token time →
      ⟨prim.digest text,prim.digest token,relayId,time + 60⟩ ∈ s'.tickets → x ≠ .redeemed text)
    (tickets : ∀ text relayId token time name since, Unredeemed f text relayId token time → x ≠ .redeemed text →
      ⟨prim.digest text,prim.digest token,relayId,time + 60⟩ ∈ s.tickets →
      ⟨prim.digest token,name,since + 86400⟩ ∈ s.sessions → ¬ x.Revokes name token →
      ⟨prim.digest text,prim.digest token,relayId,time + 60⟩ ∈ s'.tickets) : Mirrors prim (f ++ [x]) s' := by
  have held : ∀ name token time, Issued (f ++ [x]) name token time → Issued f name token time ∧ ¬ x.Revokes name token := by
    intro name token time issued
    rcases issuedLater.mp issued with rfl | old
    · cases quiet
    · exact old
  have open' : ∀ text relayId token time, Unredeemed (f ++ [x]) text relayId token time →
      Unredeemed f text relayId token time ∧ x ≠ .redeemed text := by
    intro text relayId token time minted
    rcases unredeemedLater.mp minted with rfl | old
    · cases quiet
    · exact old
  refine ⟨accounts,fun row there => ?_,fun name token time issued alive => ?_,fun name token time issued => ?_,fun k there => ?_,
    fun text relayId token time name since minted young issued alive => ?_,fun text relayId token time minted => ?_,?_⟩
  · obtain ⟨token,time,issued,shape⟩ := mirrors.sessions row (fewer row there)
    have inside := fewer row there
    rw [shape] at inside there
    exact ⟨token,time,issuedLater.mpr (.inr ⟨issued,(sessions _ _ _ issued inside).mp there⟩),shape⟩
  · obtain ⟨old,spared⟩ := held _ _ _ issued
    exact (sessions _ _ _ old (mirrors.held _ _ _ old (by omega))).mpr spared
  · rw [accountLater]
    obtain ⟨old,spared⟩ := held _ _ _ issued
    exact owned _ _ _ old spared
  · obtain ⟨text,token,time,minted,shape⟩ := mirrors.tickets k (fewer' k there)
    rw [shape] at there
    exact ⟨text,token,time,unredeemedLater.mpr (.inr ⟨minted,gone _ _ _ _ minted there⟩),shape⟩
  · obtain ⟨old,spared⟩ := held _ _ _ issued
    obtain ⟨minted',unused⟩ := open' _ _ _ _ minted
    exact tickets _ _ _ _ name since minted' unused (mirrors.kept _ _ _ _ _ _ minted' (by omega) old (by omega))
      (mirrors.held _ _ _ old (by omega)) spared
  · rcases List.mem_append.mp minted with old | last
    · obtain ⟨name,since,there⟩ := mirrors.source _ _ _ _ old
      exact ⟨name,since,List.mem_append_left _ there⟩
    · cases List.mem_singleton.mp last
      cases quiet
  · intro y inside text mine
    rcases List.mem_append.mp inside with old | last
    · exact mirrors.lengths y old text mine
    · cases List.mem_singleton.mp last
      rw [quiet] at mine
      cases mine

theorem issuedSecret {c : Call} {name token : String} {time : Int} (issued : Issued f name token time) :
    token ∈ f.flatMap Fact.secrets ++ c.secrets :=
  List.mem_append_left _ (List.mem_flatMap.mpr ⟨_,issuedFact issued,by simp [Fact.secrets]⟩)

theorem mintedSecret {c : Call} {text relayId token : String} {time : Int} (minted : Unredeemed f text relayId token time) :
    text ∈ f.flatMap Fact.secrets ++ c.secrets ∧ token ∈ f.flatMap Fact.secrets ++ c.secrets :=
  ⟨List.mem_append_left _ (List.mem_flatMap.mpr ⟨_,mintedFact minted,by simp [Fact.secrets]⟩),
    List.mem_append_left _ (List.mem_flatMap.mpr ⟨_,mintedFact minted,by simp [Fact.secrets]⟩)⟩

theorem mirrorsRedeem (mirrors : Mirrors prim f s) {c : Call} (apart : Apart prim f c) {text relayId : String}
    (mine : text ∈ f.flatMap Fact.secrets ++ c.secrets) (good : Redeemable f s.now text relayId) :
    (exec prim (.redeemTicket (prim.digest text) relayId) s).1 = .ok 1 ∧
      Mirrors prim (f ++ [.redeemed text]) (exec prim (.redeemTicket (prim.digest text) relayId) s).2 := by
  obtain ⟨k,inside,hash,relay,young,session⟩ := (chosenIff mirrors apart mine).mpr good
  have one : (exec prim (.redeemTicket (prim.digest text) relayId) s).1 = .ok 1 := by
    refine congrArg Except.ok (Nat.le_antisymm ?_ ?_)
    · refine affectedAtMostOne fun a b left right => ?_
      exact (of_decide_eq_true left).1.trans (of_decide_eq_true right).1.symm
    · exact affectedPos.mpr ⟨k,inside,decide_eq_true ⟨hash,relay,young,session⟩⟩
  refine ⟨one,mirrorsAfter mirrors rfl (by simp) (listedStill mirrors.accounts fun _ _ => rfl)
    (fun name token time issued _ => mirrors.owned _ _ _ issued) (fun row there => there)
    (fun name token time _ there => iff_of_true there id) (fun k' there => (memDelete.mp there).1) ?_ ?_⟩
  · rintro text' relayId' token time minted there again
    cases again
    obtain ⟨old,spared⟩ := memDelete.mp there
    -- the hash is the primary key: this would be the row just deleted
    have equal := sameRow (fun _ _ => Eq.symm) old inside hash.symm
    rw [equal] at spared
    exact of_decide_eq_false spared ⟨hash,relay,young,session⟩
  · intro text' relayId' token time name since minted other there _ _
    refine memDelete.mpr ⟨there,decide_eq_false ?_⟩
    rintro ⟨clash,_⟩
    exact other (congrArg Fact.redeemed (apart _ (mintedSecret minted).1 _ mine clash).symm)

theorem redeemNothing (mirrors : Mirrors prim f s) {c : Call} (apart : Apart prim f c) {text relayId : String}
    (mine : text ∈ f.flatMap Fact.secrets ++ c.secrets) (bad : ¬ Redeemable f s.now text relayId) :
    exec prim (.redeemTicket (prim.digest text) relayId) s = (.ok 0,s) := by
  have none : ∀ k ∈ s.tickets, decide (k.hash = prim.digest text ∧ k.relayId = relayId ∧ s.now < k.expires ∧
      k.sessionHash ∈ s.liveHashes) = false :=
    fun k inside => decide_eq_false fun chosen => bad ((chosenIff mirrors apart mine).mp ⟨k,inside,chosen⟩)
  refine Prod.ext (congrArg Except.ok (affectedZero.mpr none)) ?_
  simp only [exec,deleteSame.mpr none]

theorem mirrorsRevokeSession (mirrors : Mirrors prim f s) {token : String} (apart : Apart prim f (.revoke token)) :
    Mirrors prim (f ++ [.revoked token]) (exec prim (.revokeSession (prim.digest token)) s).2 := by
  have mine : token ∈ f.flatMap Fact.secrets ++ (Call.revoke token).secrets := by simp [Call.secrets]
  refine mirrorsAfter mirrors rfl (by simp) (listedStill mirrors.accounts fun _ _ => rfl)
    (fun name token time issued _ => mirrors.owned _ _ _ issued) (fun row there => (memDelete.mp there).1) ?_
    (fun k there => there) (by simp) (fun _ _ _ _ _ _ _ _ there _ _ => there)
  intro name token' time issued there
  refine memDelete.trans ⟨fun kept same => ?_,fun other => ⟨there,decide_eq_false fun clash => other ?_⟩⟩
  · have equal : token = token' := same
    rw [equal] at kept
    exact of_decide_eq_false kept.2 rfl
  · exact (apart _ (issuedSecret issued) _ mine clash).symm

/- The rows that `revoke_user` deletes are those of the account's sessions and of their tickets. -/
theorem mirrorsRevokeUser (mirrors : Mirrors prim f s) {x : Fact} {s' : Store} {name : String} (quiet : x.mints = [])
    (revokes : ∀ name' token, x.Revokes name' token ↔ name = name') (later : s.now ≤ s'.now)
    (accounts : Listed prim (f ++ [x]) s'.accounts)
    (others : ∀ name', name' ≠ name → account f name' ≠ none → x.change name' (account f name') ≠ none)
    (tickets : s'.tickets = (exec prim (.deleteTicketsOf name) s).2.tickets)
    (sessions : s'.sessions = (exec prim (.deleteSessionsOf name) s).2.sessions)
    (unused : ∀ text, x ≠ .redeemed text) : Mirrors prim (f ++ [x]) s' := by
  refine mirrorsAfter mirrors quiet later accounts (fun name' token time issued spared => ?_) (fun row there => ?_) ?_
    (fun k there => ?_) (fun text _ _ _ _ _ => unused text) ?_
  · rw [revokes] at spared
    exact others _ (Ne.symm spared) (mirrors.owned _ _ _ issued)
  · rw [sessions] at there
    exact (memDelete.mp there).1
  · intro name' token time issued there
    rw [sessions,revokes]
    refine memDelete.trans ⟨fun kept same => ?_,fun other => ⟨there,decide_eq_false fun same => other same.symm⟩⟩
    exact of_decide_eq_false kept.2 same.symm
  · rw [tickets] at there
    exact (memDelete.mp there).1
  · intro text relayId token time name' since minted _ there session spared
    rw [revokes] at spared
    rw [tickets]
    refine memDelete.mpr ⟨there,decide_eq_false fun owned => ?_⟩
    simp only [List.mem_map,List.mem_filter,decide_eq_true_eq] at owned
    obtain ⟨row,⟨inside,mine⟩,hash⟩ := owned
    have equal := sameRow (fun _ _ => Eq.symm) (memRows.mpr inside) session hash
    rw [equal] at mine
    exact spared mine.symm

theorem listedRow {accounts : Table Account fun a b => a.name = b.name} (listed : Listed prim f accounts) {a : Account}
    (inside : a ∈ accounts) : account f a.name ≠ none := fun none => listed.unknown _ none a inside rfl

theorem hasAccountIff {accounts : Table Account fun a b => a.name = b.name} (listed : Listed prim f accounts) {name : String} :
    (∃ a ∈ accounts, a.name = name) ↔ account f name ≠ none := by
  constructor
  · rintro ⟨a,inside,rfl⟩
    exact listedRow listed inside
  · intro there
    obtain ⟨⟨p,b⟩,there⟩ := Option.ne_none_iff_exists'.mp there
    obtain ⟨salt,_,row⟩ := listed.known _ _ _ there
    exact ⟨_,row,rfl⟩

theorem listedCreated {accounts t : Table Account fun a b => a.name = b.name} (listed : Listed prim f accounts)
    {name p salt : String} (exact : Exact prim salt) (size : name.utf8ByteSize ≤ 64 ∧ p.utf8ByteSize ≤ 72)
    (done : accounts.insert ⟨name,prim.bcryptHash p salt,true⟩ = some t) : Listed prim (f ++ [.created name p]) t := by
  have rows := fun a => memInsert (a := a) done
  have change : ∀ n, account (f ++ [.created name p]) n = if name = n then some (p,true) else account f n :=
    fun n => accountLater
  refine ⟨fun n q b there => ?_,fun n there a inside => ?_,fun n q b there => ?_⟩
  · rw [change] at there
    split at there
    · rename_i same
      cases there
      subst same
      exact ⟨salt,exact,(rows _).mpr (.inr rfl)⟩
    · obtain ⟨salt',exact',row⟩ := listed.known _ _ _ there
      exact ⟨salt',exact',(rows _).mpr (.inl row)⟩
  · rw [change] at there
    split at there
    · cases there
    · rename_i other
      rcases (rows a).mp inside with old | rfl
      · exact listed.unknown _ there a old
      · exact other
  · rw [change] at there
    split at there
    · rename_i same
      cases there
      subst same
      exact size
    · exact listed.sizes _ _ _ there

/- An update of the row of one account. -/
theorem listedAmended {accounts t : Table Account fun a b => a.name = b.name} (listed : Listed prim f accounts)
    {name : String} {x : Fact} {g : Account → Account} {h : String × Bool → String × Bool}
    (rows : ∀ a, a ∈ t ↔ ∃ r ∈ accounts, (if r.name = name then g r else r) = a)
    (change : ∀ n, x.change n (account f n) = if name = n then (account f n).map h else account f n)
    (keeps : ∀ r : Account, (g r).name = r.name)
    (writes : ∀ p b salt, p.utf8ByteSize ≤ 72 → Exact prim salt → (h (p,b)).1.utf8ByteSize ≤ 72 ∧
      ∃ salt', Exact prim salt' ∧ g ⟨name,prim.bcryptHash p salt,b⟩ = ⟨name,prim.bcryptHash (h (p,b)).1 salt',(h (p,b)).2⟩) :
    Listed prim (f ++ [x]) t := by
  refine ⟨fun n q b there => ?_,fun n there a inside => ?_,fun n q b there => ?_⟩
  · rw [accountLater,change] at there
    split at there
    · rename_i same
      subst same
      obtain ⟨⟨q',b'⟩,before,new⟩ := Option.map_eq_some_iff.mp there
      obtain ⟨salt,exact,row⟩ := listed.known _ _ _ before
      obtain ⟨_,salt',exact',written⟩ := writes q' b' salt (listed.sizes _ _ _ before).2 exact
      rw [new] at written
      exact ⟨salt',exact',(rows _).mpr ⟨_,row,by rw [if_pos rfl,written]⟩⟩
    · rename_i other
      obtain ⟨salt,exact,row⟩ := listed.known _ _ _ there
      exact ⟨salt,exact,(rows _).mpr ⟨_,row,if_neg (Ne.symm other)⟩⟩
  · obtain ⟨r,before,rfl⟩ := (rows a).mp inside
    have none : account f n = none := by
      rw [accountLater,change] at there
      split at there
      · exact Option.map_eq_none_iff.mp there
      · exact there
    have apart := listed.unknown _ none r before
    split
    · rw [keeps]; exact apart
    · exact apart
  · rw [accountLater,change] at there
    split at there
    · rename_i same
      subst same
      obtain ⟨⟨q',b'⟩,before,new⟩ := Option.map_eq_some_iff.mp there
      obtain ⟨salt,exact,_⟩ := listed.known _ _ _ before
      obtain ⟨size,_⟩ := writes q' b' salt (listed.sizes _ _ _ before).2 exact
      rw [new] at size
      exact ⟨(listed.sizes _ _ _ before).1,size⟩
    · exact listed.sizes _ _ _ there

theorem listedDeleted {accounts : Table Account fun a b => a.name = b.name} (listed : Listed prim f accounts) (name : String) :
    Listed prim (f ++ [.deleted name]) (accounts.delete fun a => a.name = name) := by
  have change : ∀ n, account (f ++ [.deleted name]) n = if name = n then none else account f n := fun n => accountLater
  refine ⟨fun n q b there => ?_,fun n there a inside => ?_,fun n q b there => ?_⟩
  · rw [change] at there
    split at there
    · cases there
    · rename_i other
      obtain ⟨salt,exact,row⟩ := listed.known _ _ _ there
      exact ⟨salt,exact,memDelete.mpr ⟨row,decide_eq_false (Ne.symm other)⟩⟩
  · obtain ⟨old,spared⟩ := memDelete.mp inside
    rw [change] at there
    split at there
    · rename_i same
      subst same
      exact of_decide_eq_false spared
    · exact listed.unknown _ there a old
  · rw [change] at there
    split at there
    · cases there
    · exact listed.sizes _ _ _ there

end Statements

end OpenuuServer.AccountFacts
