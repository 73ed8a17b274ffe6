import FluentBit.Event.Decoder
import FluentBit.Foundation.CString

/-! The check of a PING message in the handshake of the forward input, after
`plugins/in_forward/fw_prot.c`. The hash function is a parameter that does not fail. -/

set_option autoImplicit false

namespace FluentBit.InForward

open CString
open Msgpack (Object)

/-- `struct flb_in_fw_user`; a name has no zero byte. -/
structure User where
  name : Bytes
  password : Bytes
  noZero : 0 ∉ name

/-- `struct flb_in_fw_config` and `struct flb_in_fw_helo` -/
structure Secure where
  sharedKey : Bytes
  users : List User
  nonce : Bytes
  salt : Bytes
  /-- `flb_hash_simple_batch` for `FLB_HASH_SHA512` -/
  sha512 : List Bytes → Fin 64 → UInt8
  /-- The size and the elements that are read of an object that is neither an array nor a map. -/
  asArray : Object → Nat × List Object

variable (secure : Secure)

def hexDigit (digit : UInt8) : UInt8 := if digit < 10 then 48 + digit else 87 + digit

def formatBinToHex (hash : Fin 64 → UInt8) : Bytes :=
  (List.ofFn hash).flatMap fun byte => [hexDigit (byte / 16), hexDigit (byte % 16)]

def hashSharedKey (salt hostname : Bytes) : Bytes :=
  formatBinToHex (secure.sha512 [salt, hostname, secure.nonce, secure.sharedKey])

def passwordDigest (username password : Bytes) : Bytes :=
  formatBinToHex (secure.sha512 [secure.salt, username, password])

def userAuthentication (username digest : Bytes) : Bool :=
  secure.users.any fun user =>
    strncmp user.name username user.name.length == .eq && digest.length == 128 &&
      strncmp (passwordDigest secure username user.password) digest digest.length == .eq

/-- `root.via.array`, whatever the type of the object: a map has its size and its pairs there. -/
def viaArray : Object → Nat × List Object
  | .array items => (items.length, items)
  | .map entries => (entries.length, entries.flatMap fun (key, value) => [key, value])
  | other => secure.asArray other

/-- `check_ping` for the object that was read: what it returns, and the salt of the shared key. -/
def checkPing (root : Object) : Int × Option Bytes :=
  match viaArray secure root with
  | (6, .str ping :: .str hostname :: .str salt :: .str digest :: .str username :: .str password :: _) =>
    if ping ≠ [0x50, 0x49, 0x4e, 0x47] then (-1, none)
    else if strncmp (hashSharedKey secure salt hostname) digest 128 ≠ .eq then (-1, none)
    else if secure.users ≠ [] ∧ userAuthentication secure username password = false then (-2, some salt)
    else (0, some salt)
  | _ => (-1, none)

structure Ping where
  hostname : Bytes
  salt : Bytes
  digest : Bytes
  username : Bytes
  password : Bytes

def Ping.fields (ping : Ping) : List Object :=
  [.str [0x50, 0x49, 0x4e, 0x47], .str ping.hostname, .str ping.salt, .str ping.digest, .str ping.username,
    .str ping.password]

/-- A PING message whose digests are the ones that are computed, for a user of that name if there
are users. -/
def Authentic (root : Object) : Prop :=
  ∃ ping : Ping, root = .array ping.fields ∧ ping.digest = hashSharedKey secure ping.salt ping.hostname ∧
    (secure.users = [] ∨ ∃ user ∈ secure.users, user.name = ping.username ∧
      ping.password = passwordDigest secure ping.username user.password)

/-- A user whose name begins the username, or is it, and who has the password. -/
def NearUser (username password : Bytes) : Prop :=
  ∃ user ∈ secure.users, user.name <+: username ∧ password = passwordDigest secure username user.password

/-- The six fields that are read pass the comparisons, the digest as far as 128 bytes, but the
message is not an array, or the digest has more bytes, or no user with the password has the very name. -/
def Mistaken (root : Object) : Prop :=
  ∃ ping : Ping, (viaArray secure root).1 = 6 ∧ ping.fields <+: (viaArray secure root).2 ∧
    hashSharedKey secure ping.salt ping.hostname <+: ping.digest ∧
    (secure.users = [] ∨ NearUser secure ping.username ping.password) ∧
    ((∀ items, root ≠ .array items) ∨ 128 < ping.digest.length ∨ secure.users ≠ [] ∧
      ∀ user ∈ secure.users, user.name = ping.username →
        ping.password ≠ passwordDigest secure ping.username user.password)

variable {secure} {root : Object}

private theorem length_formatBinToHex (hash : Fin 64 → UInt8) : (formatBinToHex hash).length = 128 := by
  simp [formatBinToHex]

private theorem hexDigit_ne_zero {digit : UInt8} (small : digit < 16) : hexDigit digit ≠ 0 := by
  intro zero
  have number := congrArg UInt8.toNat zero
  rw [UInt8.lt_iff_toNat_lt] at small
  unfold hexDigit at number
  split at number <;> simp at small number <;> omega

private theorem zero_notMem_formatBinToHex (hash : Fin 64 → UInt8) : 0 ∉ formatBinToHex hash := by
  intro zero
  obtain ⟨byte, -, held⟩ := List.mem_flatMap.mp zero
  have high : byte / 16 < 16 := by
    rw [UInt8.lt_iff_toNat_lt, UInt8.toNat_div]
    have := byte.toNat_lt
    simp
    omega
  have low : byte % 16 < 16 := by
    rw [UInt8.lt_iff_toNat_lt, UInt8.toNat_mod]
    simp
    omega
  obtain first | second := List.mem_pair.mp held
  · exact hexDigit_ne_zero high first.symm
  · exact hexDigit_ne_zero low second.symm

private theorem strncmp_hex_iff {hash : Fin 64 → UInt8} {digest : Bytes} :
    strncmp (formatBinToHex hash) digest 128 = .eq ↔ formatBinToHex hash <+: digest := by
  have same : strncmp (formatBinToHex hash) digest (formatBinToHex hash).length = .eq ↔ _ :=
    strncmp_length_eq_iff (zero_notMem_formatBinToHex hash)
  rwa [length_formatBinToHex] at same

private theorem userAuthentication_iff {username password : Bytes} :
    userAuthentication secure username password = true ↔ NearUser secure username password := by
  simp only [userAuthentication, NearUser, List.any_eq_true, Bool.and_eq_true, beq_iff_eq]
  refine exists_congr fun user => and_congr_right fun _ => ?_
  constructor
  · rintro ⟨⟨name, length⟩, digest⟩
    rw [length, passwordDigest, strncmp_hex_iff] at digest
    exact ⟨(strncmp_length_eq_iff user.noZero).mp name,
      (digest.eq_of_length (by rw [length, length_formatBinToHex])).symm⟩
  · rintro ⟨name, rfl⟩
    have length := length_formatBinToHex (secure.sha512 [secure.salt, username, user.password])
    exact ⟨⟨(strncmp_length_eq_iff user.noZero).mpr name, length⟩, by
      rw [passwordDigest, length]
      exact strncmp_hex_iff.mpr List.prefix_rfl⟩

private theorem checkPing_zero_iff :
    (checkPing secure root).1 = 0 ↔ ∃ ping : Ping, (viaArray secure root).1 = 6 ∧ ping.fields <+: (viaArray secure root).2 ∧
      hashSharedKey secure ping.salt ping.hostname <+: ping.digest ∧
      (secure.users = [] ∨ NearUser secure ping.username ping.password) := by
  unfold checkPing
  constructor
  · intro zero
    split at zero
    · rename_i ping hostname salt digest username password rest read
      rw [read]
      split at zero
      · cases zero
      split at zero
      · cases zero
      split at zero
      · cases zero
      rename_i isPing key user
      refine ⟨⟨hostname, salt, digest, username, password⟩, rfl, ?_, ?_, ?_⟩
      · rw [not_not.mp isPing]
        exact ⟨rest, rfl⟩
      · exact strncmp_hex_iff.mp (not_not.mp key)
      · by_cases users : secure.users = []
        · exact .inl users
        · refine .inr (userAuthentication_iff.mp ?_)
          by_contra wrong
          exact user ⟨users, by simpa using wrong⟩
    · cases zero
  · rintro ⟨ping, size, ⟨rest, read⟩, key, users⟩
    have pair : viaArray secure root = (6, ping.fields ++ rest) := Prod.ext size read.symm
    have known := strncmp_hex_iff.mpr key
    have user : ¬ (secure.users ≠ [] ∧ userAuthentication secure ping.username ping.password = false) := by
      rintro ⟨someUsers, wrong⟩
      rw [userAuthentication_iff.mpr (users.resolve_left someUsers)] at wrong
      cases wrong
    simp only [pair, Ping.fields, List.cons_append, hashSharedKey, known, ne_eq, not_true_eq_false, if_false]
    rw [if_neg user]

private theorem fields_injective {first second : Ping} (same : first.fields = second.fields) : first = second := by
  cases first
  cases second
  simpa [Ping.fields] using same

private theorem fields_of_array {ping : Ping} {items : List Object} (size : items.length = 6)
    (read : ping.fields <+: items) :
    ping.fields = items :=
  read.eq_of_length size.symm

/-- `check_ping` accepts exactly the authentic messages, unless it is mistaken about the one it gets. -/
theorem checkPing_authentic_iff (secure : Secure) (root : Object) :
    ((checkPing secure root).1 = 0 ↔ Authentic secure root) ↔ ¬ Mistaken secure root := by
  rw [checkPing_zero_iff]
  constructor
  · rintro right ⟨ping, size, read, key, users, wrong⟩
    obtain ⟨other, rfl, digest, named⟩ := right.mp ⟨ping, size, read, key, users⟩
    obtain rfl := fields_injective (fields_of_array size read)
    obtain notArray | long | unnamed := wrong
    · exact notArray _ rfl
    · rw [digest, hashSharedKey, length_formatBinToHex] at long
      exact Nat.lt_irrefl 128 long
    · obtain ⟨user, member, name, password⟩ := named.resolve_left unnamed.1
      exact unnamed.2 user member name password
  · intro sure
    constructor
    · rintro ⟨ping, size, read, key, users⟩
      by_contra unlike
      refine sure ⟨ping, size, read, key, users, ?_⟩
      by_contra fine
      obtain ⟨isArray, fine⟩ := not_or.mp fine
      obtain ⟨short, named⟩ := not_or.mp fine
      obtain ⟨items, array⟩ := not_forall_not.mp isArray
      subst array
      refine unlike ⟨ping, by rw [fields_of_array size read], ?_, ?_⟩
      · refine (key.eq_of_length_le ?_).symm
        rw [hashSharedKey, length_formatBinToHex]
        exact Nat.le_of_not_lt short
      · by_contra other
        obtain ⟨someUsers, noUser⟩ := not_or.mp other
        exact named ⟨someUsers, fun user member name password => noUser ⟨user, member, name, password⟩⟩
    · rintro ⟨ping, rfl, digest, users⟩
      refine ⟨ping, rfl, List.prefix_rfl, digest ▸ List.prefix_rfl, users.imp_right ?_⟩
      rintro ⟨user, member, name, password⟩
      exact ⟨user, member, name ▸ List.prefix_rfl, password⟩

/-- A user `al`, and a hash that is the data itself. -/
def al : Secure where
  sharedKey := [0x6b]
  users := [{ name := [0x61, 0x6c], password := [0x70], noZero := by decide }]
  nonce := []
  salt := []
  sha512 := fun data index => data.flatten.getD index 0
  asArray := fun _ => (0, [])

/-- The user logs in under the name `ali`. -/
def ali : Ping where
  hostname := [0x68]
  salt := []
  digest := hashSharedKey al [] [0x68]
  username := [0x61, 0x6c, 0x69]
  password := passwordDigest al [0x61, 0x6c, 0x69] [0x70]

theorem checkPing_longer_name : ¬ ((checkPing al (.array ali.fields)).1 = 0 ↔ Authentic al (.array ali.fields)) := by
  intro right
  have accepted : (checkPing al (.array ali.fields)).1 = 0 := by
    refine checkPing_zero_iff.mpr ⟨ali, rfl, List.prefix_rfl, List.prefix_rfl, .inr ?_⟩
    exact ⟨_, List.mem_singleton_self _, ⟨[0x69], rfl⟩, rfl⟩
  obtain ⟨ping, same, -, users⟩ := right.mp accepted
  obtain rfl := fields_injective (Object.array.inj same)
  obtain ⟨user, member, name, -⟩ := users.resolve_left (by decide)
  rw [List.mem_singleton.mp member] at name
  exact absurd name (by decide)

end FluentBit.InForward
