import NovaPay.Audit.Schema
import NovaPay.Library.Relational

/-!
# The tables of the Account service

`users`, `wallets` and `wallet_idempotency_records` with the constraints of the migrations. The columns of
an identity hold it encrypted under a key of its own, which is encrypted in turn.
-/

namespace NovaPay.Account

open Relational

abbrev Bytes := List UInt8

inductive UserStatus
  | pending
  | active
  | suspended
  | closed
deriving DecidableEq, Repr

structure EncryptedIdentity where
  identityCiphertext : Bytes
  identityIv : Bytes
  identityAuthTag : Bytes
  encryptedDek : Bytes
  dekIv : Bytes
  dekAuthTag : Bytes
  keyVersion : String
  emailLookupHmac : Option Bytes
deriving DecidableEq, Repr

structure User extends EncryptedIdentity where
  id : Uuid
  externalRef : String
  status : UserStatus
  updatedAt : Date
deriving DecidableEq, Repr

structure Wallet where
  id : Uuid
  userId : Uuid
  currency : Currency
  label : Option String
  status : WalletStatus
  ledgerAccountId : Option Uuid
  createdAt : Date
  updatedAt : Date
deriving DecidableEq, Repr

structure WalletIdempotencyRecord where
  userId : Uuid
  key : IdempotencyKey
  requestHash : Digest
  walletId : Uuid
deriving DecidableEq, Repr

/-- The checks of the lengths of the identity columns. -/
def EncryptedIdentity.check (e : EncryptedIdentity) : Bool :=
  [0, 12].contains e.identityIv.length && [0, 16].contains e.identityAuthTag.length &&
    [0, 12].contains e.dekIv.length && [0, 16].contains e.dekAuthTag.length &&
    [0, 32].contains e.encryptedDek.length && e.emailLookupHmac.all (fun b => decide (b.length = 32)) &&
    Varchar.fitsColumn 40 e.keyVersion

def User.check (u : User) : Bool := u.toEncryptedIdentity.check && Varchar.fitsColumn 100 u.externalRef

def usersIndexed (rows : List User) : Bool :=
  uniqueBy User.id rows && uniqueBy User.externalRef rows &&
    uniqueWhere (fun u => u.emailLookupHmac) rows

def usersSchema : Schema User where
  check := User.check
  indexed := usersIndexed

def walletsIndexed (rows : List Wallet) : Bool :=
  uniqueBy Wallet.id rows && uniqueBy (fun w => (w.userId, w.currency)) rows &&
    uniqueWhere Wallet.ledgerAccountId rows

def walletsSchema : Schema Wallet where
  check := fun w => w.label.all (Varchar.fitsColumn 80)
  indexed := walletsIndexed

def recordsIndexed (rows : List WalletIdempotencyRecord) : Bool :=
  uniqueBy WalletIdempotencyRecord.walletId rows && uniqueBy (fun r => (r.userId, r.key)) rows

def recordsSchema : Schema WalletIdempotencyRecord where
  check := fun r => Varchar.fitsColumn 128 r.key
  indexed := recordsIndexed

structure Database where
  users : Table usersSchema
  wallets : Table walletsSchema
  records : Table recordsSchema

namespace Database

def empty : Database where
  users := ⟨[], by simp, rfl⟩
  wallets := ⟨[], by simp, rfl⟩
  records := ⟨[], by simp, rfl⟩

def findUser (db : Database) (externalRef : String) : Option User :=
  findBy User.externalRef externalRef db.users.rows

def findWallet (db : Database) (id : Uuid) : Option Wallet := findBy Wallet.id id db.wallets.rows

def findCurrency (db : Database) (userId : Uuid) (currency : Currency) : Option Wallet :=
  findBy (fun w : Wallet => (w.userId, w.currency)) (userId, currency) db.wallets.rows

/-- The record of a key with the wallet it was written with. -/
def findRecord (db : Database) (userId : Uuid) (key : IdempotencyKey) :
    Option (WalletIdempotencyRecord × Wallet) :=
  (findBy (fun r : WalletIdempotencyRecord => (r.userId, r.key)) (userId, key) db.records.rows).bind
    fun record => (db.findWallet record.walletId).map fun wallet => (record, wallet)

end Database

end NovaPay.Account
