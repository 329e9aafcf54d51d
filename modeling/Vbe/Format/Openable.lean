import Vbe.Format.Manager
import Vbe.Library.Texts

/-! Repositories after a change of the format that may have stopped anywhere. -/
namespace Vbe.Format
open Vbe.Index (Bytes)
open Vbe.Library

variable {Key : Type} {sw : Software Key}

/-- What was written is read again, and nothing that was encrypted decrypts with two keys. -/
structure Software.Lawful (sw : Software Key) : Prop where
  repository : ∀ j, sw.unmarshalRepository (sw.marshalRepository j) = some j
  config : ∀ format data, sw.marshalConfig format = some data → sw.unmarshalConfig data = some format
  blobCfg : ∀ r, sw.unmarshalBlobCfg (sw.marshalBlobCfg r) = some r
  decrypts : ∀ nonce data key salt, sw.DecryptAes256Gcm (sw.EncryptAes256Gcm nonce data key salt) key salt = some data
  authentic : ∀ cipher key key' salt data data', sw.DecryptAes256Gcm cipher key salt = some data →
    sw.DecryptAes256Gcm cipher key' salt = some data' → key = key'

inductive Change
  | ChangePassword (newPassword : String) (nonce nonce' : Bytes)
  | SetParameters (mp : MutableParameters) (blobcfg : BlobStorageConfiguration) (requiredFeatures : List Required) (nonce nonce' : Bytes)

namespace Change

def call (sw : Software Key) (m : Manager Key) : Change → Call Key (Manager Key)
  | ChangePassword newPassword nonce nonce' => m.ChangePassword sw newPassword nonce nonce'
  | SetParameters mp blobcfg requiredFeatures nonce nonce' => m.SetParameters sw mp blobcfg requiredFeatures nonce nonce'

def newPassword (password : String) : Change → String
  | ChangePassword newPassword _ _ => newPassword
  | SetParameters .. => password

/-- What is stored after the change, or after the part of it that its surroundings let it do. -/
def after (sw : Software Key) (m : Manager Key) (c : Change) (endings : List Ending) (st : Storage) : Storage :=
  ((c.call sw m).steps Storage.perform endings st).1

end Change

def Opens (sw : Software Key) (st : Storage) (password : String) : Prop := (NewManager sw st password).isSome

def Ending.writes : Ending → Bool
  | returns _ | fails (some _) => true
  | lists _ | fails none => false

/-- How many of two writes are done, the second only if the first succeeds. -/
def progress : List Ending → Nat
  | .returns _ :: second :: _ => if second.writes then 2 else 1
  | [.returns _] => 1
  | .fails (some _) :: _ => 1
  | _ => 0

theorem progress_cases (endings : List Ending) : progress endings = 0 ∨ progress endings = 1 ∨ progress endings = 2 := by
  unfold progress
  split
  · split
    · exact .inr (.inr rfl)
    · exact .inr (.inl rfl)
  · exact .inr (.inl rfl)
  · exact .inr (.inl rfl)
  · exact .inl rfl

/-- A repository blob is read only up to a length. -/
def Fits (sw : Software Key) (b : Bytes) : Prop := (addFormatBlobChecksumAndLength sw b).isSome

/-- A change of the password does not stop between its two writes, or the passwords have one key. Parameters are of a
version that is read, and no rewritten blob is too long. -/
def Change.Survives (sw : Software Key) (m : Manager Key) (endings : List Ending) : Change → Prop
  | ChangePassword newPassword nonce _ => m.repoConfig.ContentFormat.EnablePasswordChange →
    ∀ key, m.j.DeriveFormatEncryptionKeyFromPassword sw newPassword = some key →
    ∀ j, m.j.EncryptRepositoryConfig sw m.repoConfig key nonce = some j →
    (progress endings = 1 → key = m.formatEncryptionKey) ∧ (progress endings = 2 → Fits sw (sw.marshalRepository j))
  | SetParameters mp blobcfg requiredFeatures nonce _ => mp.Validate → blobcfg.Validate →
    ∀ j, m.j.EncryptRepositoryConfig sw { m.repoConfig with
      ContentFormat := { m.repoConfig.ContentFormat with toMutableParameters := mp }
      RequiredFeatures := requiredFeatures } m.formatEncryptionKey nonce = some j →
    progress endings = 2 → Fits sw (sw.marshalRepository j) ∧ MinSupportedReadVersion ≤ mp.Version ∧ mp.Version ≤ sw.MaxFormatVersion

section Reading

/-- Whether a key opens a repository blob with a configuration blob. -/
def Unlocks (sw : Software Key) (j : KopiaRepositoryJSON) (b2 : Option Bytes) (key : Key) : Prop :=
  ∃ repoConfig, j.decryptRepositoryConfig sw key = some repoConfig ∧ (deserializeBlobCfgBytes sw j b2 key).isSome ∧
    ∀ formatBytes, (NewFormattingOptionsProvider sw repoConfig.ContentFormat formatBytes).isSome

/-- A format is supported by its version, its index version and its algorithms, whatever bytes it is read from. -/
theorem provider_isSome (f0 : ContentFormat) (formatBytes : Bytes) : (NewFormattingOptionsProvider sw f0 formatBytes).isSome ↔
    (MinSupportedReadVersion ≤ f0.Version ∧ f0.Version ≤ sw.MaxFormatVersion) ∧ (0 ≤ f0.IndexVersion ∧ f0.IndexVersion ≤ 2) ∧
      sw.creates f0.toAlgorithms := by
  have algorithms (f : ContentFormat) (algorithms : f.toAlgorithms = f0.toAlgorithms) :
      (if sw.creates (if f.MaxPackSize = 0 then { f with MaxPackSize := 20 * 1048576 } else f).toAlgorithms then
        some (Provider.mk (if f.MaxPackSize = 0 then { f with MaxPackSize := 20 * 1048576 } else f) formatBytes) else none).isSome ↔
        sw.creates f0.toAlgorithms := by
    have same : (if f.MaxPackSize = 0 then { f with MaxPackSize := 20 * 1048576 } else f).toAlgorithms = f0.toAlgorithms := by
      split
      · exact algorithms
      · exact algorithms
    rw [same]
    split
    next creates => simp [creates]
    next fails => simp [fails]
  rw [NewFormattingOptionsProvider]
  by_cases outside : f0.Version < MinSupportedReadVersion ∨ f0.Version > sw.MaxFormatVersion
  · rw [if_pos outside]
    constructor
    · intro absurd
      contradiction
    · rintro ⟨⟨least,most⟩,_⟩
      omega
  · rw [if_neg outside]
    by_cases unset : f0.IndexVersion = 0
    · simp only [if_pos unset]
      rw [if_neg (by decide),algorithms { f0 with IndexVersion := 1 } rfl,unset]
      constructor
      · exact fun creates => ⟨by omega,by decide,creates⟩
      · exact fun all => all.2.2
    · simp only [if_neg unset]
      by_cases unknown : f0.IndexVersion < 1 ∨ f0.IndexVersion > 2
      · rw [if_pos unknown]
        constructor
        · intro absurd
          contradiction
        · rintro ⟨_,⟨least,most⟩,_⟩
          omega
      · rw [if_neg unknown,algorithms f0 rfl]
        constructor
        · exact fun creates => ⟨by omega,by omega,creates⟩
        · exact fun all => all.2.2

theorem load_eq_some {password : String} {key : Option Key} {b : Bytes} {b2 : Option Bytes} {m : Manager Key}
    (loaded : load sw password key b b2 = some m) :
    sw.unmarshalRepository b = some m.j ∧ Fits sw b ∧
      (key <|> m.j.DeriveFormatEncryptionKeyFromPassword sw password) = some m.formatEncryptionKey ∧
      m.j.decryptRepositoryConfig sw m.formatEncryptionKey = some m.repoConfig ∧
      deserializeBlobCfgBytes sw m.j b2 m.formatEncryptionKey = some m.blobCfgBlob ∧
      ∃ formatBytes, NewFormattingOptionsProvider sw m.repoConfig.ContentFormat formatBytes = some m.current := by
  simp only [load,Option.bind_eq_bind,Option.bind_eq_some_iff] at loaded
  obtain ⟨j,parsed,formatBytes,fits,key',derived,repoConfig,decrypted,blobCfg,deserialized,prov,provided,same⟩ := loaded
  cases Option.some.inj same
  exact ⟨parsed,Option.isSome_iff_exists.mpr ⟨_,fits⟩,derived,decrypted,deserialized,formatBytes,provided⟩

theorem load_isSome {password : String} {b : Bytes} {b2 : Option Bytes} {j : KopiaRepositoryJSON} (parsed : sw.unmarshalRepository b = some j) :
    (load sw password none b b2).isSome ↔
      Fits sw b ∧ ∃ key, j.DeriveFormatEncryptionKeyFromPassword sw password = some key ∧ Unlocks sw j b2 key := by
  constructor
  · intro opened
    obtain ⟨m,loaded⟩ := Option.isSome_iff_exists.mp opened
    obtain ⟨parsed',fits,derived,decrypted,deserialized,formatBytes,provided⟩ := load_eq_some loaded
    obtain rfl : j = m.j := Option.some.inj (parsed.symm.trans parsed')
    refine ⟨fits,m.formatEncryptionKey,derived,m.repoConfig,decrypted,by simp [deserialized],?_⟩
    intro other
    rw [provider_isSome _ other,← provider_isSome _ formatBytes,provided]
    rfl
  · rintro ⟨fits,key,derived,repoConfig,decrypted,deserialized,provided⟩
    obtain ⟨formatBytes,checked⟩ := Option.isSome_iff_exists.mp fits
    obtain ⟨blobCfg,deserialized⟩ := Option.isSome_iff_exists.mp deserialized
    obtain ⟨prov,provided⟩ := Option.isSome_iff_exists.mp (provided formatBytes)
    simp [load,parsed,checked,derived,decrypted,deserialized,provided]

theorem opens_iff {st : Storage} {password : String} {b : Bytes} {j : KopiaRepositoryJSON}
    (stored : st.GetBlob KopiaRepositoryBlobID = some b) (parsed : sw.unmarshalRepository b = some j) :
    Opens sw st password ↔ Fits sw b ∧ ∃ key, j.DeriveFormatEncryptionKeyFromPassword sw password = some key ∧
      Unlocks sw j (st.GetBlob KopiaBlobCfgBlobID) key := by
  rw [Opens,NewManager,stored,Option.bind_some,load_isSome parsed]

end Reading

section Writing
variable {st : Storage}

theorem cfg_ne_repository : KopiaBlobCfgBlobID ≠ KopiaRepositoryBlobID := by decide

/-- Two writes are done up to how far they got. -/
theorem two_writes (m m' a : Manager Key) (id id' : String) (data data' : Bytes) (r r' : BlobStorageConfiguration) (endings : List Ending) :
    ∃ time time', ((do demand m (.PutBlob id data r); demand m' (.PutBlob id' data' r'); .answer a : Call Key (Manager Key)).steps
      Storage.perform endings st).1 =
        match progress endings with
        | 0 => st
        | 1 => st.PutBlob ⟨id,data,time⟩
        | _ => (st.PutBlob ⟨id,data,time⟩).PutBlob ⟨id',data',time'⟩ := by
  match endings with
  | [] => exact ⟨0,0,rfl⟩
  | .lists _ :: _ => exact ⟨0,0,rfl⟩
  | .fails none :: _ => exact ⟨0,0,rfl⟩
  | .fails (some time) :: _ => exact ⟨time,0,rfl⟩
  | [.returns time] => exact ⟨time,0,rfl⟩
  | .returns time :: .returns time' :: _ => exact ⟨time,time',rfl⟩
  | .returns time :: .lists _ :: _ => exact ⟨time,0,rfl⟩
  | .returns time :: .fails none :: _ => exact ⟨time,0,rfl⟩
  | .returns time :: .fails (some time') :: _ => exact ⟨time,time',rfl⟩

/-- Only the encrypted bytes of a repository blob change. -/
structure Encrypts (sw : Software Key) (f j : KopiaRepositoryJSON) (format : RepositoryConfig) (key : Key) : Prop where
  from' : f.EncryptionAlgorithm = aes256GcmEncryption
  aes : j.EncryptionAlgorithm = aes256GcmEncryption
  salt : j.UniqueID = f.UniqueID
  derives : ∀ password, j.DeriveFormatEncryptionKeyFromPassword sw password = f.DeriveFormatEncryptionKeyFromPassword sw password
  cipher : ∃ nonce data, sw.marshalConfig format = some data ∧ j.EncryptedFormatBytes = sw.EncryptAes256Gcm nonce data key f.UniqueID

theorem encrypts {f j : KopiaRepositoryJSON} {format : RepositoryConfig} {key : Key} {nonce : Bytes}
    (encrypted : f.EncryptRepositoryConfig sw format key nonce = some j) : Encrypts sw f j format key := by
  rw [KopiaRepositoryJSON.EncryptRepositoryConfig] at encrypted
  split at encrypted
  next aes =>
    obtain ⟨data,marshalled,rfl⟩ := Option.map_eq_some_iff.mp encrypted
    exact ⟨aes,aes,rfl,fun _ => rfl,nonce,data,marshalled,rfl⟩
  next other => contradiction

theorem Encrypts.decrypted (lawful : sw.Lawful) {f j : KopiaRepositoryJSON} {format : RepositoryConfig} {key : Key}
    (encrypts : Encrypts sw f j format key) : j.decryptRepositoryConfig sw key = some format := by
  obtain ⟨nonce,data,marshalled,same⟩ := encrypts.cipher
  rw [KopiaRepositoryJSON.decryptRepositoryConfig,if_pos encrypts.aes,same,encrypts.salt,lawful.decrypts,Option.bind_some]
  exact lawful.config format data marshalled

theorem WriteBlobCfgBlob_eq (m : Manager Key) {f : KopiaRepositoryJSON} (aes : f.EncryptionAlgorithm = aes256GcmEncryption)
    (blobcfg : BlobStorageConfiguration) (key : Key) (nonce : Bytes) :
    WriteBlobCfgBlob sw m f blobcfg key nonce =
      demand m (.PutBlob KopiaBlobCfgBlobID (sw.EncryptAes256Gcm nonce (sw.marshalBlobCfg blobcfg) key f.UniqueID) blobcfg) := by
  rw [WriteBlobCfgBlob,serializeBlobCfgBytes,aes,if_neg (by decide),if_pos rfl]

/-- What a change of the format leaves: nothing, or a configuration blob, or both blobs under one key. -/
theorem after_cases (st : Storage) (m : Manager Key) (format : RepositoryConfig) (c : Change) (key : Key) (j : KopiaRepositoryJSON)
    (cfg : BlobStorageConfiguration) (nonce nonce' : Bytes) (encrypted : m.j.EncryptRepositoryConfig sw format key nonce = some j)
    (m1 m2 a : Manager Key) (shape : c.call sw m = do
      WriteBlobCfgBlob sw m1 j cfg key nonce'
      WriteKopiaRepositoryBlob sw m2 j cfg
      .answer a) (endings : List Ending) :
    ∃ time time', c.after sw m endings st =
      match progress endings with
      | 0 => st
      | 1 => st.PutBlob ⟨KopiaBlobCfgBlobID,sw.EncryptAes256Gcm nonce' (sw.marshalBlobCfg cfg) key m.j.UniqueID,time⟩
      | _ => (st.PutBlob ⟨KopiaBlobCfgBlobID,sw.EncryptAes256Gcm nonce' (sw.marshalBlobCfg cfg) key m.j.UniqueID,time⟩).PutBlob
          ⟨KopiaRepositoryBlobID,sw.marshalRepository j,time'⟩ := by
  have encrypts := encrypts encrypted
  rw [Change.after,shape,WriteBlobCfgBlob_eq m1 encrypts.aes,encrypts.salt]
  exact two_writes m1 m2 a _ _ _ _ _ _ endings

end Writing

section Changes
variable {st : Storage} {m : Manager Key} {password : String} {key : Key} {j : KopiaRepositoryJSON} {format : RepositoryConfig} {nonce : Bytes}

/-- A repository blob with the configuration blob that was written with the same key, or with one of another key. -/
theorem unlocks_iff (lawful : sw.Lawful) {j : KopiaRepositoryJSON} (aes : j.EncryptionAlgorithm = aes256GcmEncryption) {key' : Key}
    {nonce' : Bytes} {cfg : BlobStorageConfiguration} :
    Unlocks sw j (some (sw.EncryptAes256Gcm nonce' (sw.marshalBlobCfg cfg) key' j.UniqueID)) key ↔
      key = key' ∧ ∃ repoConfig, j.decryptRepositoryConfig sw key = some repoConfig ∧
        ∀ formatBytes, (NewFormattingOptionsProvider sw repoConfig.ContentFormat formatBytes).isSome := by
  have deserialize : deserializeBlobCfgBytes sw j (some (sw.EncryptAes256Gcm nonce' (sw.marshalBlobCfg cfg) key' j.UniqueID)) key =
      (sw.DecryptAes256Gcm (sw.EncryptAes256Gcm nonce' (sw.marshalBlobCfg cfg) key' j.UniqueID) key j.UniqueID).bind sw.unmarshalBlobCfg := by
    rw [deserializeBlobCfgBytes,aes,if_neg (by decide),if_pos rfl]
  rw [Unlocks,deserialize]
  constructor
  · rintro ⟨repoConfig,decrypted,deserialized,provided⟩
    obtain ⟨r,deserialized⟩ := Option.isSome_iff_exists.mp deserialized
    obtain ⟨data,opened,_⟩ := Option.bind_eq_some_iff.mp deserialized
    exact ⟨lawful.authentic _ _ _ _ _ _ opened (lawful.decrypts nonce' _ key' j.UniqueID),repoConfig,decrypted,provided⟩
  · rintro ⟨rfl,repoConfig,decrypted,provided⟩
    refine ⟨repoConfig,decrypted,?_,provided⟩
    rw [lawful.decrypts,Option.bind_some,lawful.blobCfg]
    rfl

/-- After both writes a repository opens with the key they were made with, if its blob fits and its format is supported. -/
theorem opens_both (lawful : sw.Lawful) (encrypted : m.j.EncryptRepositoryConfig sw format key nonce = some j) {nonce' : Bytes}
    {cfg : BlobStorageConfiguration} {time time' : Time} :
    Opens sw ((st.PutBlob ⟨KopiaBlobCfgBlobID,sw.EncryptAes256Gcm nonce' (sw.marshalBlobCfg cfg) key m.j.UniqueID,time⟩).PutBlob
      ⟨KopiaRepositoryBlobID,sw.marshalRepository j,time'⟩) password ↔
    Fits sw (sw.marshalRepository j) ∧ m.j.DeriveFormatEncryptionKeyFromPassword sw password = some key ∧
      ∀ formatBytes, (NewFormattingOptionsProvider sw format.ContentFormat formatBytes).isSome := by
  have encrypts := encrypts encrypted
  have decrypted := encrypts.decrypted lawful
  rw [opens_iff (Storage.GetBlob_PutBlob_self _ _) (lawful.repository _),
    Storage.GetBlob_PutBlob _ cfg_ne_repository,Storage.GetBlob_PutBlob_self,← encrypts.salt]
  apply and_congr_right
  intro _
  constructor
  · rintro ⟨key',derived,unlocks⟩
    obtain ⟨rfl,repoConfig,decrypted',provided⟩ := (unlocks_iff lawful encrypts.aes).mp unlocks
    obtain rfl : format = repoConfig := Option.some.inj (decrypted.symm.trans decrypted')
    exact ⟨(encrypts.derives password).symm.trans derived,provided⟩
  · rintro ⟨derived,provided⟩
    exact ⟨key,(encrypts.derives password).trans derived,(unlocks_iff lawful encrypts.aes).mpr ⟨rfl,format,decrypted,provided⟩⟩

/-- After the first write alone a repository opens with its own key, if that was the key of the write. -/
theorem opens_first (lawful : sw.Lawful) (opened : NewManager sw st password = some m) (aes : m.j.EncryptionAlgorithm = aes256GcmEncryption)
    {nonce' : Bytes} {cfg : BlobStorageConfiguration} {time : Time} {password' : String} :
    Opens sw (st.PutBlob ⟨KopiaBlobCfgBlobID,sw.EncryptAes256Gcm nonce' (sw.marshalBlobCfg cfg) key m.j.UniqueID,time⟩) password' ↔
      m.j.DeriveFormatEncryptionKeyFromPassword sw password' = some key ∧ key = m.formatEncryptionKey := by
  obtain ⟨b,stored,loaded⟩ := Option.bind_eq_some_iff.mp opened
  obtain ⟨parsed,fits,_,decrypted,_,formatBytes,provided⟩ := load_eq_some loaded
  rw [opens_iff ((Storage.GetBlob_PutBlob _ cfg_ne_repository.symm).trans stored) parsed,Storage.GetBlob_PutBlob_self]
  constructor
  · rintro ⟨_,key',derived,unlocks⟩
    obtain ⟨rfl,repoConfig,decrypted',_⟩ := (unlocks_iff lawful aes).mp unlocks
    refine ⟨derived,?_⟩
    rw [KopiaRepositoryJSON.decryptRepositoryConfig,if_pos aes] at decrypted decrypted'
    obtain ⟨data,cipher,_⟩ := Option.bind_eq_some_iff.mp decrypted
    obtain ⟨data',cipher',_⟩ := Option.bind_eq_some_iff.mp decrypted'
    exact lawful.authentic _ _ _ _ _ _ cipher' cipher
  · rintro ⟨derived,rfl⟩
    refine ⟨fits,_,derived,(unlocks_iff lawful aes).mpr ⟨rfl,m.repoConfig,decrypted,?_⟩⟩
    intro other
    rw [provider_isSome _ other,← provider_isSome _ formatBytes,provided]
    rfl

/-- The format of what was opened stays supported with other parameters that are valid, if their version is. -/
theorem provider_parameters {f0 : ContentFormat} {formatBytes : Bytes} (supported : (NewFormattingOptionsProvider sw f0 formatBytes).isSome)
    {mp : MutableParameters} (valid : mp.Validate) :
    (NewFormattingOptionsProvider sw { f0 with toMutableParameters := mp } formatBytes).isSome ↔
      MinSupportedReadVersion ≤ mp.Version ∧ mp.Version ≤ sw.MaxFormatVersion := by
  have index : 0 ≤ mp.IndexVersion ∧ mp.IndexVersion ≤ 2 := by
    simp only [MutableParameters.Validate,Bool.and_eq_true,Bool.not_eq_true',Bool.or_eq_false_iff,decide_eq_false_iff_not] at valid
    omega
  rw [provider_isSome] at supported
  rw [provider_isSome]
  exact ⟨fun all => all.1,fun version => ⟨version,index,supported.2.2⟩⟩

end Changes

section Examples
open Texts
deriving instance Countable for EpochParameters,MutableParameters,Algorithms,ContentFormat,IfNotUnderstood,Required,UpgradeLockIntent,
  RepositoryConfig,KopiaRepositoryJSON,BlobStorageConfiguration

def someParameters : MutableParameters := ⟨3,20971520,2,⟨false,0,0,0,0,0,0,0⟩⟩

def someConfig : RepositoryConfig :=
  ⟨⟨⟨"hash","encryption","",0,[],[]⟩,someParameters,true⟩,"splitter",none,[]⟩

def someRepository : KopiaRepositoryJSON := ⟨"tool","","",[],"algorithm",aes256GcmEncryption,[1]⟩

/-- Two keys, that of the password "old" and that of all others, which mark what they encrypt. -/
noncomputable def twoKeys : Software Bool where
  marshalRepository := marshal someRepository
  unmarshalRepository := unmarshal someRepository
  marshalConfig format := some (marshal someConfig format)
  unmarshalConfig := unmarshal someConfig
  marshalBlobCfg := marshal .none
  unmarshalBlobCfg := unmarshal .none
  checksum _ := List.replicate 32 0
  DeriveKeyFromPassword password _ _ := some (password = "old")
  EncryptAes256Gcm _ data key _ := (if key then 1 else 0) :: data
  DecryptAes256Gcm cipher key _ := if cipher.head? = some (if key then 1 else 0) then some cipher.tail else none
  creates _ := true
  MaxFormatVersion := 3

theorem twoKeys_lawful : twoKeys.Lawful where
  repository := unmarshal_marshal _
  config format data same := by
    obtain rfl := Option.some.inj same
    exact unmarshal_marshal _ _
  blobCfg := unmarshal_marshal _
  decrypts _ _ _ _ := by simp [twoKeys]
  authentic cipher key key' _ _ _ opened opened' := by
    simp only [twoKeys,Option.ite_none_right_eq_some] at opened opened'
    have same := opened.1.symm.trans opened'.1
    cases key <;> cases key' <;> simp_all

/-- The repository blob alone, whose text is the empty one. -/
def someStorage : Storage := [⟨KopiaRepositoryBlobID,[],0⟩]

def someManager : Manager Bool :=
  ⟨"old",true,someRepository,someConfig,.none,⟨someConfig.ContentFormat,[32,0] ++ List.replicate 32 0 ++ [32,0]⟩⟩

theorem someManager_opened : NewManager twoKeys someStorage "old" = some someManager := by
  have repository : twoKeys.unmarshalRepository [] = some someRepository := by
    rw [← marshal_least someRepository]
    exact unmarshal_marshal _ _
  have config : twoKeys.unmarshalConfig [] = some someConfig := by
    rw [← marshal_least someConfig]
    exact unmarshal_marshal _ _
  have decrypted : someRepository.decryptRepositoryConfig twoKeys true = some someConfig := config
  have derived : someRepository.DeriveFormatEncryptionKeyFromPassword twoKeys "old" = some true := rfl
  have checked : addFormatBlobChecksumAndLength twoKeys [] = some ([32,0] ++ List.replicate 32 0 ++ [32,0]) := rfl
  have stored : someStorage.GetBlob KopiaRepositoryBlobID = some [] := rfl
  have absent : someStorage.GetBlob KopiaBlobCfgBlobID = none := rfl
  rw [NewManager,stored,absent]
  simp only [Option.bind_some,load,repository,checked,Option.bind_eq_bind,derived]
  rw [show (none <|> some true) = some true from rfl,Option.bind_some,decrypted]
  rfl

end Examples

end Vbe.Format
