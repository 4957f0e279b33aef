import Apg.Spec.Install

/-!
# Keys and signatures

`sign/sodium/keyring.c` and `sign/sodium/sodium.c`, over a file system with links. The
functions of `libsodium` are a parameter (`Sodium`); a call that the system refuses is
told by the arguments named `io`.
-/

namespace Apg

open Posix

/-- `crypto_sign_PUBLICKEYBYTES`. -/
abbrev Key := {b : Bytes // b.length = 32}

/-- `crypto_sign_BYTES`. -/
abbrev Signature := {b : Bytes // b.length = 64}

/-- `crypto_sign_SECRETKEYBYTES`. -/
abbrev SecretKey := {b : Bytes // b.length = 64}

/-- What the code calls of `libsodium`. -/
structure Sodium where
  /-- `crypto_sign_state`. -/
  State : Type
  init : State
  update : State → Bytes → State
  finalCreate : State → SecretKey → Option Signature
  finalVerify : State → Signature → Key → Bool
  verifyDetached : Signature → Bytes → Key → Bool

/-- `strrchr`, as the string from the found character on. -/
def strrchr (c : CChar) : CStr → Option CStr
  | [] => none
  | x :: s =>
    match strrchr c s with
    | some t => some t
    | none => if x = c then some (x :: s) else none

/-- `fopen` for reading and one `fread` of `n` bytes, which has to get them all. -/
def freadFull (n : ℕ) (io : Bool) (path : CStr) (fs : Host) : Option {b : Bytes // b.length = n} :=
  if io then
    (readFile fs (comps path)).bind fun data =>
      if h : n ≤ data.length then some ⟨data.take n, by rw [List.length_take]; omega⟩ else none
  else none

/-- `fopen` for writing, one `fwrite` and `fclose`. The file is empty once it is open;
`written` bytes of the data get into it, and `closed` tells whether `fclose` succeeds. -/
structure WriteIo where
  opens : Bool := true
  written : ℕ
  closed : Bool := true
  mode : ℕ := 0o644

def writeAll (io : WriteIo) (path : CStr) (data : Bytes) (fs : Host) : Bool × Host :=
  match if io.opens then writeFile fs (comps path) (data.take io.written) io.mode else none with
  | none => (false, fs)
  | some fs => (data.length ≤ io.written && io.closed, fs)

/-- The loop that reads a file by blocks of 4096 bytes. -/
def updateLoop (S : Sodium) (state : S.State) (data : Bytes) : S.State :=
  if data = [] then state else updateLoop S (S.update state (data.take 4096)) (data.drop 4096)
  termination_by data.length
  decreasing_by
    rename_i h
    have hpos := List.length_pos_iff.2 h
    rw [List.length_drop]
    omega

/-- The state after a whole file. -/
def hashFile (S : Sodium) (io : Bool) (path : CStr) (fs : Host) : Option S.State :=
  if io then (readFile fs (comps path)).map (updateLoop S S.init) else none

/-! ## Keyrings -/

/-- `struct keyring`. -/
structure Keyring where
  keys : List Key
  deriving DecidableEq

def hasKeyExt (name : CStr) : Bool := strrchr .dot name = some (cstr ".key")

/-- The path of an entry of a directory of keys: the buffer holds `PATH_MAX`. -/
def keyPath (keyringDir name : CStr) : CStr := (keyringDir ++ .slash :: name).take 4095

/-- The calls of `keyring_load`: the names that `readdir` returns of those that are there,
and for each file whether it is read and there is memory for its key. -/
structure LoadIo where
  init : Bool := true
  opens : Bool := true
  readdir : List FileName → List FileName := id
  reads : FileName → Bool := fun _ => true

/-- The key of one entry. -/
def loadKey (io : LoadIo) (keyringDir : CStr) (fs : Host) (name : FileName) : Option Key :=
  if hasKeyExt name.1 then freadFull 32 (io.reads name) (keyPath keyringDir name.1) fs else none

/-- `.` and `..` have no such extension, and are left out of the names. -/
def keyringLoad (io : LoadIo) (keyringDir : CStr) (fs : Host) : Option Keyring :=
  if io.init && io.opens then
    (reach fs (comps keyringDir)).bind fun q =>
      if fs.isDirAt q then some ⟨(io.readdir (list fs q)).filterMap (loadKey io keyringDir fs)⟩ else none
  else none

/-- The files that `keyring_verify` can read. -/
structure VerifyIo where
  sig : Bool := true
  pkg : Bool := true

def keyringVerify (S : Sodium) (io : VerifyIo) (kr : Option Keyring) (pkgPath sigPath : Option CStr) (fs : Host) : Bool :=
  match kr, pkgPath, sigPath with
  | some kr, some pkgPath, some sigPath =>
    if kr.keys = [] then false
    else
      match freadFull 64 io.sig sigPath fs with
      | none => false
      | some sig =>
        match hashFile S io.pkg pkgPath fs with
        | none => false
        | some base => kr.keys.any (S.finalVerify base sig)
  | _, _, _ => false

structure AddIo where
  init : Bool := true
  key : Bool := true
  sig : Bool := true
  write : WriteIo := { written := 32 }

/-- What follows the last slash. -/
def baseName (path : CStr) : CStr :=
  match strrchr .slash path with
  | some t => t.tail
  | none => path

def keyringAddKey (S : Sodium) (io : AddIo) (keyringDir newKeyPath keySigPath : CStr) (trusted : Keyring) (fs : Host) :
    Bool × Host :=
  if !io.init then (false, fs)
  else
    match freadFull 32 io.key newKeyPath fs with
    | none => (false, fs)
    | some newKey =>
      match freadFull 64 io.sig keySigPath fs with
      | none => (false, fs)
      | some keySig =>
        -- the bytes of the new key are signed by an existing trusted key
        if trusted.keys.any (S.verifyDetached keySig newKey.1) then
          writeAll io.write (keyPath keyringDir (baseName newKeyPath)) newKey.1 fs
        else (false, fs)

/-! ## One pair of keys -/

structure SignIo where
  init : Bool := true
  key : Bool := true
  pkg : Bool := true
  write : WriteIo := { written := 64 }

/-- `sign_file`, with the directory `APG_KEYS_DIR`. -/
def signFile (S : Sodium) (io : SignIo) (keysDir pkgPath sigPath : CStr) (fs : Host) : Bool × Host :=
  if !io.init then (false, fs)
  else
    match freadFull 64 io.key (keyPath keysDir (cstr "secret.key")) fs with
    | none => (false, fs)
    | some secretKey =>
      match hashFile S io.pkg pkgPath fs with
      | none => (false, fs)
      | some state =>
        match S.finalCreate state secretKey with
        | none => (false, fs)
        | some signature => writeAll io.write sigPath signature.1 fs

structure CheckIo where
  init : Bool := true
  sig : Bool := true
  key : Bool := true
  pkg : Bool := true

def signVerify (S : Sodium) (io : CheckIo) (keysDir pkgPath sigPath : CStr) (fs : Host) : Bool :=
  if !io.init then false
  else
    match freadFull 64 io.sig sigPath fs with
    | none => false
    | some signature =>
      match freadFull 32 io.key (keyPath keysDir (cstr "public.key")) fs with
      | none => false
      | some publicKey =>
        match hashFile S io.pkg pkgPath fs with
        | none => false
        | some state => S.finalVerify state signature publicKey

/-! ## A directory of keys -/

/-- A host, and the keyrings that some process on it has loaded from the directory. -/
structure Site where
  fs : Host
  loaded : List Keyring := []

/-- An entry of the directory that has the extension leads to a file that starts with
the key. -/
def Held (fs : Host) (keyringDir : CStr) (k : Key) : Prop :=
  ∃ name : FileName, hasKeyExt name.1 = true ∧ freadFull 32 true (keyPath keyringDir name.1) fs = some k

/-- What happens on a host: the keys are loaded, a loaded keyring is used to add a key, to
whatever directory, and anything else that brings no key. -/
inductive Site.Step (S : Sodium) (keyringDir : CStr) : Site → Site → Prop
  | load {s : Site} {kr : Keyring} (io : LoadIo) : keyringLoad io keyringDir s.fs = some kr →
      Site.Step S keyringDir s { s with loaded := kr :: s.loaded }
  | addKey {s : Site} {trusted : Keyring} (io : AddIo) (dir newKeyPath keySigPath : CStr) : trusted ∈ s.loaded →
      Site.Step S keyringDir s { s with fs := (keyringAddKey S io dir newKeyPath keySigPath trusted s.fs).2 }
  | other {s : Site} {fs : Host} : (∀ k, Held fs keyringDir k → Held s.fs keyringDir k) →
      Site.Step S keyringDir s { s with fs := fs }

/-- The one key has signed the other. -/
def Sodium.Endorses (S : Sodium) (k k' : Key) : Prop := ∃ sig, S.verifyDetached sig k'.1 k = true

end Apg
