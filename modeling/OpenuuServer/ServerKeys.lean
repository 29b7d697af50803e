import OpenuuServer.Base64
import OpenuuServer.ProcessRuns
import OpenuuServer.RendezvousCommands

/-! The validation key of the two servers. A key argument is a public key, a secret key in base64, or
a dash or underscore for the key pair of the working directory, which is read or made. -/
namespace OpenuuServer.ServerKeys
open ProcessRuns
open ProcessRuns.Process
open RendezvousCommands (trim isWhitespace)

/- What the servers use of the base64 crate. -/
structure Codec where
  encode : List UInt8 → String
  decode : String → Option (List UInt8)
  decodeEncode : ∀ bytes, decode (encode bytes) = some bytes
  dash : decode "-" = none
  underscore : decode "_" = none
  empty : decode "" = some []
  plain : ∀ bytes, trim (encode bytes).toList = (encode bytes).toList

@[ext] structure SecretKey where
  bytes : List UInt8
  size : bytes.length = 64

/- A secret key ends with its public key. -/
structure KeyPair where
  pk : List UInt8
  sk : SecretKey
  half : sk.bytes.drop 32 = pk

structure Files where
  secret : Option ByteArray
  pub : Option ByteArray

/- What the system makes of each call on the key files, how far a failing write gets, and what other
processes do while this one sleeps. -/
structure System where
  opens : Bool
  reads : Bool
  createsPub : Bool
  createsSecret : Bool
  writesPub : Option Nat
  writesSecret : Option Nat
  draws : Nat → KeyPair
  meanwhile : Files → Files

def written (failure : Option Nat) (text : String) : ByteArray :=
  match failure with
  | none => text.toUTF8
  | some n => text.toUTF8.extract 0 n

def openFile (y : System) (f : Files) : Option ByteArray := if y.opens then f.secret else none

def readToString (y : System) (content : ByteArray) : Option String := if y.reads then String.fromUTF8? content else none

/- Up to 300 further pairs are drawn for a public key without `/` and `:`. -/
def choose (b : Codec) (draws : Nat → KeyPair) : Nat → Nat → KeyPair
  | 0,i => draws i
  | n + 1,i =>
    if '/' ∉ (b.encode (draws i).pk).toList ∧ ':' ∉ (b.encode (draws i).pk).toList then draws i
    else choose b draws n (i + 1)

/- The key pair a file tells, or the end of the process. -/
def readKey (b : Codec) (contents : String) : Except Ending (String × Option SecretKey) :=
  let sk := (b.decode (String.ofList (trim contents.toList))).getD []
  if size : sk.length = 64 then .ok (b.encode (sk.drop 32),some ⟨sk,size⟩) else .error .exited

def awake (y : System) (wait : Nat) (f : Files) : Files := if 0 < wait ∧ f.secret = none then y.meanwhile f else f

def genSk (b : Codec) (y : System) (wait : Nat) : Process Files (String × Option SecretKey) := fun f₀ =>
  let f := awake y wait f₀
  match openFile y f with
  | some content =>
    match readToString y content with
    | some contents => (readKey b contents,f)
    | none => (.ok ("",none),f)
  | none =>
    let pair := choose b y.draws 300 0
    let pk := b.encode pair.pk
    if y.createsPub then
      let f := {f with pub := some (written y.writesPub pk)}
      if y.createsSecret then
        let f := {f with secret := some (written y.writesSecret (b.encode pair.sk.bytes))}
        if y.writesSecret = none then (.ok (pk,some pair.sk),f) else (.ok ("",none),f)
      else (.ok ("",none),f)
    else (.ok ("",none),f)

/- A key argument that is a secret key, with its public key. -/
def privateKey (b : Codec) (key : String) : Option (String × SecretKey) :=
  match b.decode key with
  | some sk => if size : sk.length = 64 then some (b.encode (sk.drop 32),⟨sk,size⟩) else none
  | none => none

def Rendezvous.getServerSk (b : Codec) (y : System) (key : String) : Process Files (String × Option SecretKey) :=
  let outSk := (privateKey b key).map Prod.snd
  let key := ((privateKey b key).map Prod.fst).getD key
  if key = "" ∨ key = "-" ∨ key = "_" then do
    let (pk,sk) ← genSk b y 0
    value (if key ≠ "" then pk else key,sk)
  else value (key,outSk)

def Relay.getServerSk (b : Codec) (y : System) (key : String) : Process Files String :=
  let key := ((privateKey b key).map Prod.fst).getD key
  if key = "-" ∨ key = "_" then do
    let (pk,_) ← genSk b y 300
    value pk
  else value key


/- The test both servers put a request's licence key to. -/
def refuses (key licence : String) : Bool := !key.isEmpty && licence ≠ key

/- The server ends or has a key that refuses some licence. -/
def Validates (result : Except Ending String) : Prop := ∀ key, result = .ok key → ∃ licence, refuses key licence = true

def KeyPairAsked (key : String) : Prop := key = "-" ∨ key = "_"

structure Readable (y : System) (f : Files) (text : String) : Prop where
  opens : y.opens = true
  reads : y.reads = true
  content : ∃ content, f.secret = some content ∧ String.fromUTF8? content = some text

structure Makes (y : System) (f : Files) : Prop where
  unopened : openFile y f = none
  createsPub : y.createsPub = true
  createsSecret : y.createsSecret = true
  written : y.writesSecret = none

/- The key pair is on file as text, or it can be made and written. -/
def Obtains (y : System) (f : Files) : Prop := (∃ text, Readable y f text) ∨ Makes y f

section Codec
variable (b : Codec)

theorem refusesSome {key : String} : (∃ licence, refuses key licence = true) ↔ key ≠ "" := by
  constructor
  · rintro ⟨licence,refused⟩ rfl
    cases refused
  · intro present
    refine ⟨"",?_⟩
    rw [refuses,Bool.and_eq_true,decide_eq_true_eq,Bool.not_eq_true',String.isEmpty_eq_false_iff]
    exact ⟨present,present.symm⟩

theorem encodeApart {bytes : List UInt8} {text : String} (other : b.decode text ≠ some bytes) : b.encode bytes ≠ text := by
  intro same
  exact other (same ▸ b.decodeEncode bytes)

theorem encodePresent {bytes : List UInt8} (some : bytes ≠ []) : b.encode bytes ≠ "" :=
  encodeApart b (by rw [b.empty]; exact fun same => some (Option.some.inj same).symm)

theorem halfPresent (sk : SecretKey) : sk.bytes.drop 32 ≠ [] := by
  intro none
  have short := congrArg List.length none
  rw [List.length_drop,sk.size] at short
  cases short

theorem choosePresent (y : System) : b.encode (choose b y.draws 300 0).pk ≠ "" :=
  encodePresent b ((choose b y.draws 300 0).half ▸ halfPresent _)

theorem readKeyPresent {text k : String} {sk : Option SecretKey} (read : readKey b text = .ok (k,sk)) : k ≠ "" := by
  unfold readKey at read
  dsimp only at read
  split at read
  · rename_i size
    cases read
    exact encodePresent b (halfPresent ⟨_,size⟩)
  · cases read

theorem openReadable {y : System} {f : Files} {text : String} (readable : Readable y f text) :
    ∃ content, openFile y f = some content ∧ readToString y content = some text := by
  obtain ⟨content,there,utf8⟩ := readable.content
  refine ⟨content,?_,?_⟩
  · rw [openFile,if_pos readable.opens,there]
  · rw [readToString,if_pos readable.reads,utf8]

theorem readableOpen {y : System} {f : Files} {content : ByteArray} {text : String} (opened : openFile y f = some content)
    (read : readToString y content = some text) : Readable y f text := by
  unfold openFile at opened
  unfold readToString at read
  split at opened <;> try contradiction
  split at read <;> try contradiction
  rename_i opens reads
  exact ⟨opens,reads,content,opened,read⟩

/- A readable key file decides the outcome alone. -/
theorem genSkReads {y : System} {wait : Nat} {f : Files} {text : String} (readable : Readable y f text) :
    genSk b y wait f = (readKey b text,f) := by
  obtain ⟨content,there,_⟩ := readable.content
  have same : awake y wait f = f := if_neg fun both => nomatch both.2.symm.trans there
  obtain ⟨content,opened,read⟩ := openReadable readable
  unfold genSk
  dsimp only
  rw [same,opened]
  dsimp only
  rw [read]

/- Making a key pair ends in its public key or, at the first failure, in the empty one. -/
theorem genSkPresent (y : System) (wait : Nat) (f : Files) :
    (∀ k sk, (genSk b y wait f).1 = .ok (k,sk) → k ≠ "") ↔ Obtains y (awake y wait f) := by
  unfold genSk
  dsimp only
  split
  · rename_i content opened
    split
    · rename_i text read
      exact ⟨fun _ => .inl ⟨text,readableOpen opened read⟩,fun _ k sk ran => readKeyPresent b ran⟩
    · rename_i unread
      refine ⟨fun present => absurd rfl (present "" none rfl),?_⟩
      rintro (⟨text,readable⟩ | makes)
      · obtain ⟨content',opened',read⟩ := openReadable readable
        cases opened.symm.trans opened'
        cases unread.symm.trans read
      · cases opened.symm.trans makes.unopened
  · rename_i unopened
    have only : Obtains y (awake y wait f) ↔ Makes y (awake y wait f) := by
      refine ⟨?_,.inr⟩
      rintro (⟨text,readable⟩ | makes)
      · obtain ⟨content,opened,_⟩ := openReadable readable
        cases unopened.symm.trans opened
      · exact makes
    rw [only]
    split
    · rename_i createsPub
      split
      · rename_i createsSecret
        split
        · rename_i complete
          refine ⟨fun _ => ⟨unopened,createsPub,createsSecret,complete⟩,?_⟩
          intro _ k sk ran
          cases ran
          exact choosePresent b y
        · rename_i broken
          exact ⟨fun present => absurd rfl (present "" none rfl),fun makes => absurd makes.written broken⟩
      · rename_i createsSecret
        exact ⟨fun present => absurd rfl (present "" none rfl),fun makes => absurd makes.createsSecret createsSecret⟩
    · rename_i createsPub
      exact ⟨fun present => absurd rfl (present "" none rfl),fun makes => absurd makes.createsPub createsPub⟩

/- The key a server goes by before it turns to the key files. -/
def keyText (key : String) : String := ((privateKey b key).map Prod.fst).getD key

theorem keyTextOf {key : String} (pair : KeyPairAsked key) : keyText b key = key := by
  rcases pair with rfl | rfl
  · rw [keyText,privateKey,b.dash]
    rfl
  · rw [keyText,privateKey,b.underscore]
    rfl

theorem keyTextEncoded {key : String} : keyText b key = key ∨ ∃ bytes, bytes ≠ [] ∧ keyText b key = b.encode bytes := by
  unfold keyText privateKey
  split
  · rename_i sk decoded
    split
    · rename_i size
      exact .inr ⟨sk.drop 32,halfPresent ⟨sk,size⟩,rfl⟩
    · exact .inl rfl
  · exact .inl rfl

theorem keyTextPresent {key : String} (asked : key ≠ "") : keyText b key ≠ "" := by
  rcases @keyTextEncoded b key with same | ⟨bytes,some,same⟩
  · rw [same]
    exact asked
  · rw [same]
    exact encodePresent b some

theorem keyTextAsked {key : String} : KeyPairAsked (keyText b key) ↔ KeyPairAsked key := by
  rcases @keyTextEncoded b key with same | ⟨bytes,_,same⟩
  · rw [same]
  · refine ⟨?_,fun pair => (keyTextOf b pair).symm ▸ pair⟩
    rw [same]
    rintro (dash | underscore)
    · exact absurd dash (encodeApart b (by rw [b.dash]; exact fun none => nomatch none))
    · exact absurd underscore (encodeApart b (by rw [b.underscore]; exact fun none => nomatch none))

def Rendezvous.key (y : System) (key : String) (f : Files) : Except Ending String :=
  (Rendezvous.getServerSk b y key f).1.map Prod.fst

def Relay.key (y : System) (key : String) (f : Files) : Except Ending String := (Relay.getServerSk b y key f).1

section Servers
variable {b} {y : System} {key : String} {f : Files}

theorem Rendezvous.keyPair (pair : KeyPairAsked key) : Rendezvous.key b y key f = (genSk b y 0 f).1.map Prod.fst := by
  have same := keyTextOf b pair
  have present : key ≠ "" := by rcases pair with rfl | rfl <;> decide
  unfold keyText at same
  unfold Rendezvous.key getServerSk
  dsimp only
  rw [same,if_pos (.inr pair)]
  change (andThen (genSk b y 0) _ f).1.map Prod.fst = _
  unfold andThen
  cases genSk b y 0 f with
  | mk result s =>
    cases result with
    | ok made => exact congrArg Except.ok (if_pos present)
    | error e => rfl

theorem Rendezvous.keyGiven (asked : key ≠ "") (given : ¬ KeyPairAsked key) : Rendezvous.key b y key f = .ok (keyText b key) := by
  have present := keyTextPresent b asked
  have other := mt (keyTextAsked b).mp given
  unfold keyText at present other
  unfold Rendezvous.key getServerSk
  dsimp only
  rw [if_neg fun special => special.elim present other]
  rfl

theorem Relay.keyPair (pair : KeyPairAsked key) : Relay.key b y key f = (genSk b y 300 f).1.map Prod.fst := by
  have same := keyTextOf b pair
  have either : key = "-" ∨ key = "_" := pair
  unfold keyText at same
  unfold Relay.key getServerSk
  dsimp only
  rw [same,if_pos either]
  change (andThen (genSk b y 300) _ f).1 = _
  unfold andThen
  cases genSk b y 300 f with
  | mk result s =>
    cases result with
    | ok made => rfl
    | error e => rfl

theorem Relay.keyGiven (given : ¬ KeyPairAsked key) : Relay.key b y key f = .ok (keyText b key) := by
  have other := mt (keyTextAsked b).mp given
  unfold keyText KeyPairAsked at other
  unfold Relay.key getServerSk
  dsimp only
  rw [if_neg other]
  rfl

theorem validatesMade {wait : Nat} : Validates ((genSk b y wait f).1.map Prod.fst) ↔ Obtains y (awake y wait f) := by
  rw [← genSkPresent b y wait f]
  constructor
  · intro validates k sk made
    exact refusesSome.mp (validates k (by rw [made]; rfl))
  · intro present k result
    cases made : (genSk b y wait f).1 with
    | ok both =>
      rw [made] at result
      cases result
      exact refusesSome.mpr (present both.1 both.2 made)
    | error e =>
      rw [made] at result
      cases result

theorem validatesGiven (asked : key ≠ "") : Validates (.ok (keyText b key)) := by
  intro k same
  cases same
  exact refusesSome.mpr (keyTextPresent b asked)

end Servers

/- Both servers refuse other keys, or end, just when the key pair they are asked for can be had; and
from a readable key file, or a given key, both go by the same key. -/
theorem keyRequired (key : String) (asked : key ≠ "") (y : System) (f : Files) :
    (Validates (Rendezvous.key b y key f) ↔ (KeyPairAsked key → Obtains y f)) ∧
    (Validates (Relay.key b y key f) ↔ (KeyPairAsked key → Obtains y (awake y 300 f))) ∧
    ∀ y' text, Readable y f text → Readable y' f text → Rendezvous.key b y key f = Relay.key b y' key f := by
  by_cases pair : KeyPairAsked key
  · refine ⟨?_,?_,?_⟩
    · rw [Rendezvous.keyPair pair,validatesMade]
      exact ⟨fun obtains _ => obtains,fun obtains => obtains pair⟩
    · rw [Relay.keyPair pair,validatesMade]
      exact ⟨fun obtains _ => obtains,fun obtains => obtains pair⟩
    · intro y' text readable readable'
      rw [Rendezvous.keyPair pair,Relay.keyPair pair,genSkReads b readable,genSkReads b readable']
  · refine ⟨?_,?_,?_⟩
    · rw [Rendezvous.keyGiven asked pair]
      exact iff_of_true (validatesGiven asked) fun pair' => absurd pair' pair
    · rw [Relay.keyGiven pair]
      exact iff_of_true (validatesGiven asked) fun pair' => absurd pair' pair
    · intro y' text _ _
      rw [Rendezvous.keyGiven asked pair,Relay.keyGiven pair]

theorem utf8Read (text : String) : String.fromUTF8? text.toUTF8 = some text := dif_pos text.isValidUTF8

theorem readKeyEncoded (pair : KeyPair) : readKey b (b.encode pair.sk.bytes) = .ok (b.encode pair.pk,some pair.sk) := by
  have decoded : (b.decode (String.ofList (trim (b.encode pair.sk.bytes).toList))).getD [] = pair.sk.bytes := by
    rw [b.plain,String.ofList_toList,b.decodeEncode]
    rfl
  unfold readKey
  dsimp only
  rw [dif_pos (decoded.symm ▸ pair.sk.size)]
  have sk : (⟨_,decoded.symm ▸ pair.sk.size⟩ : SecretKey) = pair.sk := SecretKey.ext decoded
  rw [sk,decoded,pair.half]

/- Whoever reads the files of a key pair that was made finds that pair. -/
theorem madeRead {y y' : System} {wait : Nat} {f : Files} (makes : Makes y (awake y wait f)) (opens : y'.opens = true)
    (reads : y'.reads = true) (wait' : Nat) :
    (genSk b y' wait' (genSk b y wait f).2).1 = (genSk b y wait f).1 := by
  have made : genSk b y wait f = (.ok (b.encode (choose b y.draws 300 0).pk,some (choose b y.draws 300 0).sk),
      ⟨some (b.encode (choose b y.draws 300 0).sk.bytes).toUTF8,some (written y.writesPub (b.encode (choose b y.draws 300 0).pk))⟩) := by
    unfold genSk
    dsimp only
    rw [makes.unopened]
    dsimp only
    rw [if_pos makes.createsPub,if_pos makes.createsSecret,if_pos makes.written,makes.written]
    rfl
  rw [made]
  dsimp only
  rw [genSkReads b ⟨opens,reads,_,rfl,utf8Read _⟩]
  exact readKeyEncoded b _

/- A relay started on the files of a rendezvous server that made its key pair has the same key. -/
theorem sharedDirectory {key : String} (pair : KeyPairAsked key) {y y' : System} {f : Files} (makes : Makes y f)
    (opens : y'.opens = true) (reads : y'.reads = true) :
    Relay.key b y' key (genSk b y 0 f).2 = Rendezvous.key b y key f := by
  rw [Relay.keyPair pair,Rendezvous.keyPair pair,@madeRead b _ _ 0 _ makes opens reads]

end Codec

theorem trimPlain {text : List Char} (plain : ∀ c ∈ text, isWhitespace c = false) : trim text = text := by
  have whole {list : List Char} (plain : ∀ c ∈ list, isWhitespace c = false) : list.dropWhile isWhitespace = list := by
    cases list with
    | nil => rfl
    | cons c rest => rw [List.dropWhile_cons_of_neg]; rw [plain c List.mem_cons_self]; decide
  rw [trim,whole plain,whole fun c member => plain c (List.mem_reverse.mp member),List.reverse_reverse]

def standard : Codec where
  encode bytes := String.ofList (Base64.encode bytes)
  decode text := Base64.decode text.toList
  decodeEncode bytes := by rw [String.toList_ofList,Base64.decodeEncode]
  dash := rfl
  underscore := rfl
  empty := rfl
  plain bytes := by
    rw [String.toList_ofList]
    have visible : Base64.alphabet.all (fun c => !isWhitespace c) = true := by rfl
    refine trimPlain fun c member => ?_
    rcases Base64.encodeAlphabet bytes c member with letter | rfl
    · exact Bool.not_eq_true' _ ▸ List.all_eq_true.mp visible c letter
    · rfl

def zeros : KeyPair := ⟨List.replicate 32 0,⟨List.replicate 64 0,rfl⟩,rfl⟩

/- Everything works but what is said. -/
def working : System := ⟨true,true,true,true,none,none,fun _ => zeros,id⟩

theorem dashValidates : Validates (Rendezvous.key standard working "-" ⟨none,none⟩) ∧
    Validates (Relay.key standard working "-" ⟨none,none⟩) := by
  obtain ⟨rendezvous,relay,_⟩ := keyRequired standard "-" (by decide) working ⟨none,none⟩
  have makes : Makes working ⟨none,none⟩ := ⟨rfl,rfl,rfl,rfl⟩
  exact ⟨rendezvous.mpr fun _ => .inr makes,relay.mpr fun _ => .inr makes⟩

theorem emptyInvalid : ¬ Validates (.ok "") := by
  intro validates
  obtain ⟨licence,refused⟩ := validates "" rfl
  cases refused

/- A key file that is no text, or a directory that cannot be written, leaves both servers with the empty
key, which refuses nobody. -/
theorem keyLost :
    (Rendezvous.key standard working "-" ⟨some ⟨#[255]⟩,none⟩ = .ok "" ∧
      ¬ Validates (Rendezvous.key standard working "-" ⟨some ⟨#[255]⟩,none⟩)) ∧
    (Relay.key standard working "-" ⟨some ⟨#[255]⟩,none⟩ = .ok "" ∧
      ¬ Validates (Relay.key standard working "-" ⟨some ⟨#[255]⟩,none⟩)) ∧
    ¬ Validates (Rendezvous.key standard {working with createsPub := false} "-" ⟨none,none⟩) ∧
    ¬ Validates (Relay.key standard {working with createsPub := false} "-" ⟨none,none⟩) :=
  ⟨⟨by rfl,emptyInvalid⟩,⟨by rfl,emptyInvalid⟩,emptyInvalid,emptyInvalid⟩

end OpenuuServer.ServerKeys
