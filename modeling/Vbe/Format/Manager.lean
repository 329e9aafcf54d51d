import Vbe.Format.Blobs
import Vbe.Library.Queries

/-! The manager of the central blobs. JSON, the derivation of keys, authenticated encryption and the
algorithms of contents are parameters. -/
namespace Vbe.Format
open Vbe.Index (Bytes)
open Vbe.Library

def DefaultFormatEncryption : String := "AES256_GCM"

def aes256GcmEncryption : String := "AES256_GCM"

def maxChecksummedFormatBytesLength : Nat := 65000

def MinSupportedReadVersion : Int := 1

/-- What the manager calls, and the latest version of the software that calls it. -/
structure Software (Key : Type) where
  marshalRepository : KopiaRepositoryJSON → Bytes
  unmarshalRepository : Bytes → Option KopiaRepositoryJSON
  /-- A time beyond the year 9999 has no JSON. -/
  marshalConfig : RepositoryConfig → Option Bytes
  unmarshalConfig : Bytes → Option RepositoryConfig
  marshalBlobCfg : BlobStorageConfiguration → Bytes
  unmarshalBlobCfg : Bytes → Option BlobStorageConfiguration
  checksum : Bytes → Bytes
  DeriveKeyFromPassword : String → Bytes → String → Option Key
  EncryptAes256Gcm : Bytes → Bytes → Key → Bytes → Bytes
  DecryptAes256Gcm : Bytes → Key → Bytes → Option Bytes
  /-- Whether hash, encryption and error correction can be created. -/
  creates : Algorithms → Bool
  MaxFormatVersion : Int

structure Provider where
  ContentFormat : ContentFormat
  formatBytes : Bytes
deriving DecidableEq

structure Manager (Key : Type) where
  password : String
  formatEncryptionKey : Key
  j : KopiaRepositoryJSON
  repoConfig : RepositoryConfig
  blobCfgBlob : BlobStorageConfiguration
  current : Provider

variable {Key : Type} (sw : Software Key)

namespace KopiaRepositoryJSON

def DeriveFormatEncryptionKeyFromPassword (f : KopiaRepositoryJSON) (password : String) : Option Key :=
  sw.DeriveKeyFromPassword password f.UniqueID f.KeyDerivationAlgorithm

def decryptRepositoryConfig (f : KopiaRepositoryJSON) (masterKey : Key) : Option RepositoryConfig :=
  if f.EncryptionAlgorithm = aes256GcmEncryption then
    (sw.DecryptAes256Gcm f.EncryptedFormatBytes masterKey f.UniqueID).bind sw.unmarshalConfig
  else none

/-- The random nonce of the cipher is a parameter. -/
def EncryptRepositoryConfig (f : KopiaRepositoryJSON) (format : RepositoryConfig) (masterKey : Key) (nonce : Bytes) :
    Option KopiaRepositoryJSON :=
  if f.EncryptionAlgorithm = aes256GcmEncryption then
    (sw.marshalConfig format).map fun data => { f with EncryptedFormatBytes := sw.EncryptAes256Gcm nonce data masterKey f.UniqueID }
  else none

end KopiaRepositoryJSON

def serializeBlobCfgBytes (f : KopiaRepositoryJSON) (r : BlobStorageConfiguration) (formatEncryptionKey : Key) (nonce : Bytes) :
    Option Bytes :=
  if f.EncryptionAlgorithm = "NONE" then some (sw.marshalBlobCfg r)
  else if f.EncryptionAlgorithm = aes256GcmEncryption then
    some (sw.EncryptAes256Gcm nonce (sw.marshalBlobCfg r) formatEncryptionKey f.UniqueID)
  else none

/-- Without a blob, there is no retention. -/
def deserializeBlobCfgBytes (j : KopiaRepositoryJSON) (encryptedBlobCfgBytes : Option Bytes) (formatEncryptionKey : Key) :
    Option BlobStorageConfiguration :=
  match encryptedBlobCfgBytes with
  | none => some .none
  | some bytes =>
    if j.EncryptionAlgorithm = "NONE" then sw.unmarshalBlobCfg bytes
    else if j.EncryptionAlgorithm = aes256GcmEncryption then
      (sw.DecryptAes256Gcm bytes formatEncryptionKey j.UniqueID).bind sw.unmarshalBlobCfg
    else none

def addFormatBlobChecksumAndLength (fb : Bytes) : Option Bytes :=
  let checksummedFormatBytes := fb ++ sw.checksum fb
  let l := checksummedFormatBytes.length
  if l > maxChecksummedFormatBytesLength then none
  else
    let length : Bytes := [UInt8.ofNat l,UInt8.ofNat (l / 256)]
    some (length ++ checksummedFormatBytes ++ length)

/-- The latest version that is read is the latest that is written. -/
def NewFormattingOptionsProvider (f0 : ContentFormat) (formatBytes : Bytes) : Option Provider :=
  if f0.Version < MinSupportedReadVersion ∨ f0.Version > sw.MaxFormatVersion then none
  else
    let f := if f0.IndexVersion = 0 then { f0 with IndexVersion := 1 } else f0
    if f.IndexVersion < 1 ∨ f.IndexVersion > 2 then none
    else
      let f := if f.MaxPackSize = 0 then { f with MaxPackSize := 20 * 1048576 } else f
      if sw.creates f.toAlgorithms then some ⟨f,formatBytes⟩ else none

/-- What `refresh` makes of the bytes of the two blobs. A key that is at hand is used in place of the password. -/
def load (password : String) (key : Option Key) (b : Bytes) (b2 : Option Bytes) : Option (Manager Key) := do
  let j ← sw.unmarshalRepository b
  let formatBytes ← addFormatBlobChecksumAndLength sw b
  let formatEncryptionKey ← key <|> j.DeriveFormatEncryptionKeyFromPassword sw password
  let repoConfig ← j.decryptRepositoryConfig sw formatEncryptionKey
  let blobCfg ← deserializeBlobCfgBytes sw j b2 formatEncryptionKey
  let prov ← NewFormattingOptionsProvider sw repoConfig.ContentFormat formatBytes
  some ⟨password,formatEncryptionKey,j,repoConfig,blobCfg,prov⟩

/-- A new manager of what is stored. -/
def NewManager (st : Storage) (password : String) : Option (Manager Key) :=
  (st.GetBlob KopiaRepositoryBlobID).bind fun b => load sw password none b (st.GetBlob KopiaBlobCfgBlobID)

/-- A program that calls the storage. A call that fails leaves a manager behind too. -/
abbrev Call (Key α : Type) := Query Op Reply (Manager Key) α

/-- A call that has to succeed. -/
def demand (m : Manager Key) (op : Op) : Call Key Unit :=
  .ask op fun reply => if reply = .done then .answer () else .fail m

def WriteBlobCfgBlob (m : Manager Key) (f : KopiaRepositoryJSON) (blobcfg : BlobStorageConfiguration) (formatEncryptionKey : Key)
    (nonce : Bytes) : Call Key Unit :=
  match serializeBlobCfgBytes sw f blobcfg formatEncryptionKey nonce with
  | none => .fail m
  | some blobCfgBytes => demand m (.PutBlob KopiaBlobCfgBlobID blobCfgBytes blobcfg)

def WriteKopiaRepositoryBlobWithID (m : Manager Key) (f : KopiaRepositoryJSON) (blobCfg : BlobStorageConfiguration) (id : String) :
    Call Key Unit :=
  demand m (.PutBlob id (sw.marshalRepository f) blobCfg)

def WriteKopiaRepositoryBlob (m : Manager Key) (f : KopiaRepositoryJSON) (blobCfg : BlobStorageConfiguration) : Call Key Unit :=
  WriteKopiaRepositoryBlobWithID sw m f blobCfg KopiaRepositoryBlobID

namespace Manager

def ChangePassword (m : Manager Key) (newPassword : String) (nonce nonce' : Bytes) : Call Key (Manager Key) :=
  if !m.repoConfig.ContentFormat.EnablePasswordChange then .fail m
  else
    match m.j.DeriveFormatEncryptionKeyFromPassword sw newPassword with
    | none => .fail m
    | some newFormatEncryptionKey =>
      let m := { m with formatEncryptionKey := newFormatEncryptionKey, password := newPassword }
      match m.j.EncryptRepositoryConfig sw m.repoConfig newFormatEncryptionKey nonce with
      | none => .fail m
      | some j => do
        let m := { m with j := j }
        WriteBlobCfgBlob sw m m.j m.blobCfgBlob newFormatEncryptionKey nonce'
        WriteKopiaRepositoryBlob sw m m.j m.blobCfgBlob
        .answer m

def SetParameters (m : Manager Key) (mp : MutableParameters) (blobcfg : BlobStorageConfiguration) (requiredFeatures : List Required)
    (nonce nonce' : Bytes) : Call Key (Manager Key) :=
  if !mp.Validate then .fail m
  else if !blobcfg.Validate then .fail m
  else
    let format := { m.repoConfig.ContentFormat with toMutableParameters := mp }
    let m := { m with repoConfig := { m.repoConfig with ContentFormat := format, RequiredFeatures := requiredFeatures } }
    match m.j.EncryptRepositoryConfig sw m.repoConfig m.formatEncryptionKey nonce with
    | none => .fail m
    | some j => do
      let m := { m with j := j }
      WriteBlobCfgBlob sw m m.j blobcfg m.formatEncryptionKey nonce'
      let m := { m with blobCfgBlob := blobcfg }
      WriteKopiaRepositoryBlob sw m m.j m.blobCfgBlob
      .answer m

end Manager

end Vbe.Format
