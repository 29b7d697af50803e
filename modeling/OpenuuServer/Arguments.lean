import Mathlib.Data.List.Basic
import Mathlib.Data.List.Nodup
import Mathlib.Data.Nat.Notation

/-! Options from flags, files and the environment. Every source is written into the environment under
one spelling, capitals and dashes; a lookup tries that spelling first, then three others, then any
variable of that name. -/
namespace OpenuuServer.Arguments

inductive OsString
  | unicode (text : String)
  | bytes (bytes : List UInt8)
  deriving DecidableEq

abbrev Env := List (OsString × OsString)
abbrev Entries := List (String × String)

/- Unicode's case mappings, as far as the lookup relies on them, and the text of bytes that are none. -/
structure Letters where
  upper : Char → List Char
  lower : List Char → List Char
  lossy : List UInt8 → String
  upperAscii : ∀ c, c.toNat < 128 → upper c = [c.toUpper]
  upperUpper : ∀ c, ∀ d ∈ upper c, upper d = [d]
  lowerAscii : ∀ text, (∀ c ∈ text, c.toNat < 128) → lower text = text.map Char.toLower

def dash (c : Char) : Char := if c = '_' then '-' else c
def underscore (c : Char) : Char := if c = '-' then '_' else c

def argName (l : Letters) (name : String) : String := String.ofList ((name.toList.flatMap l.upper).map dash)

/- `std::env::var` -/
def var (env : Env) (name : String) : Option String :=
  match env.find? fun e => e.1 = .unicode name with
  | some (_,.unicode v) => some v
  | _ => none

def setVar (name value : String) : Env → Env
  | [] => [(.unicode name,.unicode value)]
  | e :: rest =>
    if e.1 = .unicode name then (.unicode name,.unicode value) :: rest else e :: setVar name value rest

/- `std::env::set_var` panics on any other name or value. -/
def settable (name value : String) : Bool :=
  name ≠ "" ∧ '=' ∉ name.toList ∧ Char.ofNat 0 ∉ name.toList ∧ Char.ofNat 0 ∉ value.toList

def setArg (l : Letters) (name value : String) (env : Env) : Option Env :=
  if settable (argName l name) value then some (setVar (argName l name) value env) else none

def setAll (l : Letters) : Entries → Env → Option Env
  | [],env => some env
  | e :: rest,env => do
    let env ← setArg l e.1 e.2 env
    setAll l rest env

inductive Flag
  | config
  | bind
  | port
  | serial
  | rendezvousServers
  | softwareUrl
  | relayServers
  | rmem
  | mask
  | key
  deriving DecidableEq

def Flag.name : Flag → String
  | .config => "config"
  | .bind => "bind"
  | .port => "port"
  | .serial => "serial"
  | .rendezvousServers => "rendezvous-servers"
  | .softwareUrl => "software-url"
  | .relayServers => "relay-servers"
  | .rmem => "rmem"
  | .mask => "mask"
  | .key => "key"

structure Matches where
  args : List (Flag × List OsString)
  once : (args.map Prod.fst).Nodup

def OsString.toStringLossy (l : Letters) : OsString → String
  | .unicode text => text
  | .bytes raw => l.lossy raw

def Matches.entries (l : Letters) (m : Matches) : Entries :=
  m.args.filterMap fun a => a.2.head?.map fun v => (a.1.name,v.toStringLossy l)

def Matches.config (m : Matches) : Option OsString := (m.args.find? fun a => a.1 = .config).bind fun a => a.2.head?

/- `load` gives the general section of an INI file, in order, or nothing when it cannot be had. The path
of a configuration file that is no text is a panic. -/
def setConfig (l : Letters) (load : String → Option Entries) (m : Matches) (env : Env) : Option Env :=
  match m.config with
  | some (.unicode path) => setAll l ((load path).getD []) env
  | some (.bytes _) => none
  | none => some env

def initArgs (l : Letters) (load : String → Option Entries) (m : Matches) (env : Env) : Option Env := do
  let env ← setAll l ((load ".env").getD []) env
  let env ← setConfig l load m env
  setAll l (m.entries l) env

def aliases (l : Letters) (name : String) : List String :=
  let dashed := argName l name
  let underscored := String.ofList (dashed.toList.map underscore)
  [dashed,underscored,String.ofList (l.lower dashed.toList),String.ofList (l.lower underscored.toList)]

/- A variable of that name in any spelling, if name and value are text. -/
def named (l : Letters) (name : String) (e : OsString × OsString) : Option (String × String) :=
  match e with
  | (.unicode key,.unicode value) => if argName l key = argName l name then some (key,value) else none
  | _ => none

def getArgOpt (l : Letters) (env : Env) (name : String) : Option String :=
  match (aliases l name).findSome? (var env) with
  | some value => some value
  | none => (((env.filterMap (named l name)).mergeSort fun a b => decide (a.1 ≤ b.1)).head?).map Prod.snd

def getArgOr (l : Letters) (env : Env) (name default : String) : String := (getArgOpt l env name).getD default

def getArg (l : Letters) (env : Env) (name : String) : String := getArgOr l env name ""

section Sources
variable (l : Letters)

/- The same option, whatever the case and the separators. -/
def Spells (name key : String) : Prop := argName l key = argName l name
instance (name key) : Decidable (Spells l name key) := inferInstanceAs (Decidable (_ = _))

def lastEntry (entries : Entries) (name : String) : Option String :=
  (entries.reverse.find? fun e => Spells l name e.1).map Prod.snd

def flagValue (m : Matches) (name : String) : Option String :=
  ((m.entries l).find? fun e => Spells l name e.1).map Prod.snd

def configEntries (load : String → Option Entries) (m : Matches) : Entries :=
  match m.config with
  | some (.unicode path) => (load path).getD []
  | _ => []

/- What the highest source says that is not the inherited environment. -/
def chosen (load : String → Option Entries) (m : Matches) (name : String) : Option String :=
  ((flagValue l m name).or (lastEntry l (configEntries load m) name)).or (lastEntry l ((load ".env").getD []) name)

def Inherited (env : Env) (name value : String) : Prop :=
  ∃ key, (.unicode key,.unicode value) ∈ env ∧ Spells l name key

section Names

theorem asciiAll {P : Char → Prop} (all : ∀ n < 128, P (Char.ofNat n)) {c : Char} (ascii : c.toNat < 128) : P c := by
  have here := all c.toNat ascii
  rwa [Char.ofNat_toNat] at here

theorem asciiText {text : List Char} (all : text.all (fun c => decide (c.toNat < 128)) = true) : ∀ c ∈ text, c.toNat < 128 :=
  fun c member => of_decide_eq_true (List.all_eq_true.mp all c member)

/- The character a setting is written with. -/
def fold (c : Char) : Char := dash c.toUpper

theorem dashDash (c : Char) : dash (dash c) = dash c := by
  by_cases low : c = '_'
  · rw [low]
    rfl
  · have same : dash c = c := if_neg low
    rw [same,same]

/- A name as it is written is spelled the same when it is written again. -/
theorem argNameTwice (name : String) : argName l (argName l name) = argName l name := by
  have kept (text : List Char) (upper : ∀ c ∈ text, l.upper c = [c]) :
      ((text.map dash).flatMap l.upper).map dash = text.map dash := by
    induction text with
    | nil => rfl
    | cons c rest ih =>
      have rest := ih fun d member => upper d (List.mem_cons_of_mem _ member)
      have head : l.upper (dash c) = [dash c] := by
        by_cases low : c = '_'
        · rw [dash,if_pos low]
          exact l.upperAscii '-' (by decide)
        · rw [dash,if_neg low]
          exact upper c List.mem_cons_self
      rw [List.map_cons,List.flatMap_cons,List.map_append,rest,head,List.map_cons,List.map_nil,dashDash]
      rfl
  have upper : ∀ c ∈ name.toList.flatMap l.upper, l.upper c = [c] := by
    intro c member
    obtain ⟨d,_,inside⟩ := List.mem_flatMap.mp member
    exact l.upperUpper d c inside
  rw [argName,argName,String.toList_ofList,kept _ upper]

theorem argNameAscii {text : List Char} (ascii : ∀ c ∈ text, c.toNat < 128) :
    argName l (String.ofList text) = String.ofList (text.map fold) := by
  rw [argName,String.toList_ofList]
  refine congrArg String.ofList ?_
  induction text with
  | nil => rfl
  | cons c rest ih =>
    rw [List.flatMap_cons,List.map_append,ih fun d member => ascii d (List.mem_cons_of_mem _ member),
      l.upperAscii c (ascii c List.mem_cons_self)]
    rfl

/- Mixed case and separators spell the same option. -/
theorem spellsMixed {name key : List Char} (ascii : ∀ c ∈ name, c.toNat < 128) (ascii' : ∀ c ∈ key, c.toNat < 128)
    (same : key.map fold = name.map fold) : Spells l (String.ofList name) (String.ofList key) := by
  rw [Spells,argNameAscii l ascii,argNameAscii l ascii',same]

theorem mappedSpells {name : List Char} (ascii : ∀ c ∈ name, c.toNat < 128) {g : Char → Char}
    (keeps : ∀ n < 128, (g (Char.ofNat n)).toNat < 128 ∧ fold (g (Char.ofNat n)) = fold (Char.ofNat n)) :
    Spells l (String.ofList name) (String.ofList (name.map g)) := by
  have each (c : Char) (member : c ∈ name) := asciiAll (P := fun c => (g c).toNat < 128 ∧ fold (g c) = fold c) keeps
    (ascii c member)
  refine spellsMixed l ascii ?_ ?_
  · intro c member
    obtain ⟨d,inside,rfl⟩ := List.mem_map.mp member
    exact (each d inside).1
  · rw [List.map_map]
    exact List.map_congr_left fun c member => (each c member).2

/- Each name a lookup tries is a spelling of the option. -/
theorem aliasSpells {name : String} (ascii : ∀ c ∈ name.toList, c.toNat < 128) : ∀ a ∈ aliases l name, Spells l name a := by
  obtain ⟨text,rfl⟩ : ∃ text, name = String.ofList text := ⟨name.toList,String.ofList_toList.symm⟩
  rw [String.toList_ofList] at ascii
  have inside {g : Char → Char} (keeps : ∀ n < 128, (g (Char.ofNat n)).toNat < 128) : ∀ c ∈ text.map g, c.toNat < 128 := by
    intro c member
    obtain ⟨d,within,rfl⟩ := List.mem_map.mp member
    exact asciiAll (P := fun c => (g c).toNat < 128) keeps (ascii d within)
  intro a member
  simp only [aliases,argNameAscii l ascii,String.toList_ofList,List.map_map,List.mem_cons,List.not_mem_nil,or_false] at member
  rcases member with rfl | rfl | rfl | rfl
  · exact mappedSpells l ascii (by decide)
  · exact mappedSpells l ascii (by decide)
  · rw [l.lowerAscii _ (inside (by decide)),List.map_map]
    exact mappedSpells l ascii (by decide)
  · rw [l.lowerAscii _ (inside (by decide)),List.map_map]
    exact mappedSpells l ascii (by decide)

end Names

section Settings
variable {l}

theorem varSet (name value : String) (env : Env) (n : String) :
    var (setVar name value env) n = if n = name then some value else var env n := by
  induction env with
  | nil =>
    by_cases same : n = name
    · subst same
      simp [setVar,var]
    · simp [setVar,var,same,Ne.symm same]
  | cons e rest ih =>
    by_cases here : e.1 = .unicode name
    · by_cases same : n = name
      · subst same
        simp [setVar,var,here]
      · simp [setVar,var,here,same,Ne.symm same]
    · by_cases found : e.1 = .unicode n
      · have other : n ≠ name := fun same => here (same ▸ found)
        simp [setVar,var,found,other]
      · have next : var (e :: rest) n = var rest n := by simp [var,found]
        have step : var (setVar name value (e :: rest)) n = var (setVar name value rest) n := by
          rw [setVar,if_neg here]
          simp [var,found]
        rw [step,ih,next]

theorem setArgVar {name value : String} {env env' : Env} (set : setArg l name value env = some env') :
    env' = setVar (argName l name) value env := by
  unfold setArg at set
  split at set
  · exact (Option.some.inj set).symm
  · cases set

theorem lastCons (e : String × String) (rest : Entries) (name : String) :
    lastEntry l (e :: rest) name = (lastEntry l rest name).or (if Spells l name e.1 then some e.2 else none) := by
  rw [lastEntry,lastEntry,List.reverse_cons,List.find?_append]
  cases rest.reverse.find? fun e => decide (Spells l name e.1) with
  | some found => rfl
  | none => by_cases spells : Spells l name e.1 <;> simp [spells]

/- Under the spelling that is written, the last entry for the option is what is there. -/
theorem setAllVar {entries : Entries} {env env' : Env} (set : setAll l entries env = some env') (name : String) :
    var env' (argName l name) = (lastEntry l entries name).or (var env (argName l name)) := by
  induction entries generalizing env with
  | nil =>
    cases Option.some.inj set
    rfl
  | cons e rest ih =>
    obtain ⟨next,first,later⟩ := Option.bind_eq_some_iff.mp set
    rw [ih later,setArgVar first,varSet,lastCons,Option.or_assoc]
    by_cases spells : Spells l name e.1
    · rw [if_pos spells,if_pos spells.symm]
      rfl
    · rw [if_neg spells,if_neg fun same => spells same.symm]
      rfl

theorem setVarMember {name value : String} {env : Env} {x : OsString × OsString} :
    (x ∈ setVar name value env → x ∈ env ∨ x.1 = .unicode name) ∧
      (x ∈ env → x ∈ setVar name value env ∨ x.1 = .unicode name) := by
  induction env with
  | nil =>
    refine ⟨?_,fun member => nomatch member⟩
    intro member
    rw [List.mem_singleton.mp member]
    exact .inr rfl
  | cons e rest ih =>
    rw [setVar]
    split
    · rename_i here
      constructor
      · intro member
        rcases List.mem_cons.mp member with rfl | later
        · exact .inr rfl
        · exact .inl (List.mem_cons_of_mem _ later)
      · intro member
        rcases List.mem_cons.mp member with rfl | later
        · exact .inr here
        · exact .inl (List.mem_cons_of_mem _ later)
    · constructor
      · intro member
        rcases List.mem_cons.mp member with rfl | later
        · exact .inl List.mem_cons_self
        · exact (ih.1 later).imp_left fun still => List.mem_cons_of_mem _ still
      · intro member
        rcases List.mem_cons.mp member with rfl | later
        · exact .inl List.mem_cons_self
        · exact (ih.2 later).imp_left fun still => List.mem_cons_of_mem _ still

def Written (l : Letters) (entries : Entries) (x : OsString × OsString) : Prop :=
  ∃ e ∈ entries, x.1 = .unicode (argName l e.1)

/- Only variables that an entry writes come or go. -/
theorem setAllMember {entries : Entries} {env env' : Env} (set : setAll l entries env = some env') (x : OsString × OsString) :
    (x ∈ env' → x ∈ env ∨ Written l entries x) ∧ (x ∈ env → x ∈ env' ∨ Written l entries x) := by
  induction entries generalizing env with
  | nil =>
    cases Option.some.inj set
    exact ⟨.inl,.inl⟩
  | cons e rest ih =>
    obtain ⟨next,first,later⟩ := Option.bind_eq_some_iff.mp set
    obtain ⟨come,stay⟩ := ih later
    have more : Written l rest x → Written l (e :: rest) x := fun ⟨e',member,same⟩ => ⟨e',List.mem_cons_of_mem _ member,same⟩
    have this : x.1 = .unicode (argName l e.1) → Written l (e :: rest) x := fun same => ⟨e,List.mem_cons_self,same⟩
    rw [setArgVar first] at come stay
    constructor
    · intro member
      rcases come member with before | written
      · exact (setVarMember.1 before).imp_right this
      · exact .inr (more written)
    · intro member
      rcases setVarMember.2 member with after | written
      · exact (stay after).imp_right more
      · exact .inr (this written)

theorem setAllAppend (one two : Entries) (env : Env) :
    setAll l (one ++ two) env = (setAll l one env).bind (setAll l two) := by
  induction one generalizing env with
  | nil => rfl
  | cons e rest ih =>
    cases set : setArg l e.1 e.2 env with
    | none => simp [setAll,set]
    | some next => simpa [setAll,set] using ih next

theorem lastAppend (one two : Entries) (name : String) :
    lastEntry l (one ++ two) name = (lastEntry l two name).or (lastEntry l one name) := by
  rw [lastEntry,List.reverse_append,List.find?_append,lastEntry,lastEntry]
  cases two.reverse.find? fun e => decide (Spells l name e.1) <;> rfl

theorem flagApart {f g : Flag} (same : argName l f.name = argName l g.name) : f = g := by
  have ascii (f : Flag) : ∀ c ∈ f.name.toList, c.toNat < 128 := asciiText (by cases f <;> rfl)
  have written (f : Flag) : argName l f.name = String.ofList (f.name.toList.map fold) := by
    rw [← argNameAscii l (ascii f),String.ofList_toList]
  rw [written f,written g] at same
  have folded := String.ofList_injective same
  revert folded
  cases f <;> cases g <;> decide

theorem findReverse {α : Type} {p : α → Bool} {list : List α} (one : ∀ a ∈ list, ∀ b ∈ list, p a = true → p b = true → a = b) :
    list.reverse.find? p = list.find? p := by
  cases first : list.find? p with
  | none =>
    rw [List.find?_eq_none] at first ⊢
    exact fun a member => first a (List.mem_reverse.mp member)
  | some a =>
    cases last : list.reverse.find? p with
    | none =>
      have no := List.find?_eq_none.mp last a (List.mem_reverse.mpr (List.mem_of_find?_eq_some first))
      exact absurd (List.find?_some first) no
    | some b =>
      exact congrArg some (one b (List.mem_reverse.mp (List.mem_of_find?_eq_some last)) a (List.mem_of_find?_eq_some first)
        (List.find?_some last) (List.find?_some first))

/- An option has at most one flag, so the last one is the flag. -/
theorem flagLast (m : Matches) (name : String) : lastEntry l (m.entries l) name = flagValue l m name := by
  refine congrArg (Option.map Prod.snd) (findReverse ?_)
  intro a inside b inside' spells spells'
  obtain ⟨x,given,named⟩ := List.mem_filterMap.mp inside
  obtain ⟨y,given',named'⟩ := List.mem_filterMap.mp inside'
  obtain ⟨v,value,rfl⟩ := Option.map_eq_some_iff.mp named
  obtain ⟨v',value',rfl⟩ := Option.map_eq_some_iff.mp named'
  have same : x.1 = y.1 := flagApart ((of_decide_eq_true spells).trans (of_decide_eq_true spells').symm)
  cases List.inj_on_of_nodup_map m.once given given' same
  cases value.symm.trans value'
  rfl

/- All settings in the order they are written. -/
def settings (l : Letters) (load : String → Option Entries) (m : Matches) : Entries :=
  ((load ".env").getD [] ++ configEntries load m) ++ m.entries l

theorem initAll {load : String → Option Entries} {m : Matches} {env env' : Env} (ran : initArgs l load m env = some env') :
    setAll l (settings l load m) env = some env' := by
  obtain ⟨one,first,ran⟩ := Option.bind_eq_some_iff.mp ran
  obtain ⟨two,second,last⟩ := Option.bind_eq_some_iff.mp ran
  have config : setAll l (configEntries load m) one = some two := by
    unfold configEntries
    unfold setConfig at second
    split at second
    · rename_i path given
      rw [given]
      exact second
    · cases second
    · rename_i absent
      rw [absent]
      exact second
  rw [settings,setAllAppend,setAllAppend,first,Option.bind_some,config,Option.bind_some]
  exact last

theorem settingsLast (load : String → Option Entries) (m : Matches) (name : String) :
    lastEntry l (settings l load m) name = chosen l load m name := by
  rw [settings,lastAppend,lastAppend,flagLast,chosen,Option.or_assoc]

theorem varMember {env : Env} {name value : String} (found : var env name = some value) :
    (.unicode name,.unicode value) ∈ env := by
  unfold var at found
  split at found
  · rename_i key v entry
    cases Option.some.inj found
    have holds := List.find?_some entry
    have same : key = .unicode name := of_decide_eq_true holds
    rw [← same]
    exact List.mem_of_find?_eq_some entry
  · cases found

theorem namedMember {env : Env} {name : String} {a : String × String} :
    a ∈ env.filterMap (named l name) ↔ (.unicode a.1,.unicode a.2) ∈ env ∧ Spells l name a.1 := by
  rw [List.mem_filterMap]
  constructor
  · rintro ⟨e,member,is⟩
    unfold named at is
    split at is
    · split at is
      · rename_i spells
        cases Option.some.inj is
        exact ⟨member,spells⟩
      · cases is
    · cases is
  · rintro ⟨member,spells⟩
    exact ⟨_,member,if_pos spells⟩

/- A lookup ends in a variable of the option, whenever there is one. -/
theorem getArgNamed {name : String} (ascii : ∀ c ∈ name.toList, c.toNat < 128) (env : Env) :
    match getArgOpt l env name with
    | some value => Inherited l env name value
    | none => ∀ value, ¬ Inherited l env name value := by
  unfold getArgOpt
  cases tried : (aliases l name).findSome? (var env) with
  | some value =>
    obtain ⟨a,member,found⟩ := List.exists_of_findSome?_eq_some tried
    exact ⟨a,varMember found,aliasSpells l ascii a member⟩
  | none =>
    dsimp only
    cases sorted : (env.filterMap (named l name)).mergeSort fun a b => decide (a.1 ≤ b.1) with
    | nil =>
      rintro value ⟨key,member,spells⟩
      have inside : (key,value) ∈ env.filterMap (named l name) := namedMember.mpr ⟨member,spells⟩
      have placed : (key,value) ∈ (env.filterMap (named l name)).mergeSort fun a b => decide (a.1 ≤ b.1) :=
        List.mem_mergeSort.mpr inside
      rw [sorted] at placed
      cases placed
    | cons a rest =>
      have placed : a ∈ (env.filterMap (named l name)).mergeSort fun a b => decide (a.1 ≤ b.1) :=
        sorted.symm ▸ List.mem_cons_self
      obtain ⟨member,spells⟩ := namedMember.mp (List.mem_mergeSort.mp placed)
      exact ⟨a.1,member,spells⟩

/- Variables of an option that no setting names are those that were inherited. -/
theorem inheritedSame {entries : Entries} {env env' : Env} (set : setAll l entries env = some env') {name : String}
    (unset : lastEntry l entries name = none) (value : String) : Inherited l env' name value ↔ Inherited l env name value := by
  have apart {key : String} (spells : Spells l name key) : ¬ Written l entries (.unicode key,.unicode value) := by
    rintro ⟨e,member,same⟩
    have none := List.find?_eq_none.mp (Option.map_eq_none_iff.mp unset) e (List.mem_reverse.mpr member)
    cases OsString.unicode.inj same
    exact none (decide_eq_true ((argNameTwice l e.1).symm.trans spells))
  constructor
  · rintro ⟨key,member,spells⟩
    rcases (setAllMember set _).1 member with before | written
    · exact ⟨key,before,spells⟩
    · exact absurd written (apart spells)
  · rintro ⟨key,member,spells⟩
    rcases (setAllMember set _).2 member with after | written
    · exact ⟨key,after,spells⟩
    · exact absurd written (apart spells)

end Settings

/- A lookup gives what the flag says, else the last entry of the configuration file, else the last one of
`.env`, and only then a variable that was inherited. -/
theorem precedence (load : String → Option Entries) (m : Matches) (env env' : Env) (name : String)
    (ascii : ∀ c ∈ name.toList, c.toNat < 128) (ran : initArgs l load m env = some env') :
    (∀ value, chosen l load m name = some value → getArg l env' name = value) ∧
    (chosen l load m name = none →
      (∃ value, Inherited l env name value ∧ getArg l env' name = value) ∨
      (∀ value, ¬ Inherited l env name value) ∧ getArg l env' name = "") := by
  have set := initAll ran
  have written := setAllVar set name
  rw [settingsLast] at written
  constructor
  · intro value given
    rw [given] at written
    have first : (aliases l name).findSome? (var env') = some value := by
      unfold aliases
      dsimp only
      rw [List.findSome?_cons,written]
      rfl
    rw [getArg,getArgOr,getArgOpt,first]
    rfl
  · intro unchosen
    have unset : lastEntry l (settings l load m) name = none := (settingsLast load m name).trans unchosen
    have looked := getArgNamed (l := l) ascii env'
    cases found : getArgOpt l env' name with
    | some value =>
      rw [found] at looked
      refine .inl ⟨value,(inheritedSame set unset value).mp looked,?_⟩
      rw [getArg,getArgOr,found]
      rfl
    | none =>
      rw [found] at looked
      refine .inr ⟨fun value had => looked value ((inheritedSame set unset value).mpr had),?_⟩
      rw [getArg,getArgOr,found]
      rfl

end Sources

theorem toUpperTwice (c : Char) : c.toUpper.toUpper = c.toUpper := by
  by_cases low : c.toNat < 128
  · exact asciiAll (P := fun c => c.toUpper.toUpper = c.toUpper) (by decide) low
  · have same : c.toUpper = c := by
      unfold Char.toUpper
      split
      · rename_i between
        exact absurd (Nat.lt_of_le_of_lt (UInt32.le_iff_toNat_le.mp between.2) (by decide)) low
      · rfl
    rw [same,same]

/- The mappings of the ASCII letters alone. -/
def plain : Letters where
  upper c := [c.toUpper]
  lower text := text.map Char.toLower
  lossy _ := "?"
  upperAscii _ _ := rfl
  upperUpper c d member := by
    rw [List.mem_singleton.mp member,toUpperTwice]
  lowerAscii _ _ := rfl

def files : String → Option Entries
  | ".env" => some [("port","1"),("Port","2"),("relay_servers","a")]
  | "hbbs.ini" => some [("PORT","3"),("port","4")]
  | _ => none

def given : Matches := ⟨[(.key,[.unicode "k"]),(.config,[.unicode "hbbs.ini"])],by decide⟩

def merged : Env :=
  [(.unicode "port",.unicode "0"),(.unicode "PORT",.unicode "4"),(.unicode "RELAY-SERVERS",.unicode "a"),
    (.unicode "KEY",.unicode "k"),(.unicode "CONFIG",.unicode "hbbs.ini")]

/- The last entry of the configuration file is ahead of `.env` and of a variable in another spelling. -/
theorem configAhead :
    initArgs plain files given [(.unicode "port",.unicode "0")] = some merged ∧ getArg plain merged "pOrT" = "4" := by
  have ran : initArgs plain files given [(.unicode "port",.unicode "0")] = some merged := by decide +kernel
  exact ⟨ran,(precedence plain files given _ merged "pOrT" (asciiText (by rfl)) ran).1 "4" (by decide +kernel)⟩

end OpenuuServer.Arguments
