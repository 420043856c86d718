import NovaPay.Library.DecimalArithmetic
import NovaPay.Library.DoubleEntry

/-!
# What the services exchange

Identifiers, currencies, amounts, clock readings and errors as they stand in requests, in
database columns and in the answers of one service to another.
-/

namespace NovaPay

open DecimalArithmetic

/-- A uuid as PostgreSQL stores and compares it. -/
abbrev Uuid := ℕ

/-- A uuid as a request spells it. `IsUUID` accepts both letter cases, so a text is a value
and the choice of upper-case digits; PostgreSQL returns the spelling without any. -/
structure UuidText where
  value : Uuid
  upper : ℕ
deriving DecidableEq, Repr

def UuidText.ofUuid (id : Uuid) : UuidText := ⟨id, 0⟩

@[simp] theorem UuidText.value_ofUuid (id : Uuid) : (UuidText.ofUuid id).value = id := rfl

/-- The lower-case text of a uuid, in groups of 8, 4, 4, 4 and 12 digits. -/
def uuidText (id : Uuid) : String :=
  let digits := (Nat.toDigits 16 id).leftpad 32 '0'
  String.ofList (digits.take 8 ++ '-' :: (digits.drop 8).take 4 ++ '-' :: (digits.drop 12).take 4 ++
    '-' :: (digits.drop 16).take 4 ++ '-' :: digits.drop 20)

/-- Three letters, the texts of `^[A-Z]{3}$`. -/
abbrev Currency := Fin 26 × Fin 26 × Fin 26

instance Currency.letters_ne_zero : NeZero 26 := ⟨by decide⟩

abbrev Principal := String

abbrev IdempotencyKey := String

/-- A reading of the database clock, in microseconds as `TIMESTAMPTZ(6)` keeps it. -/
abbrev Time := ℕ

/-- A JavaScript `Date`, in milliseconds. -/
abbrev Date := ℕ

/-- The `Date` the driver makes of a database time: the digits after the third are dropped. -/
def Time.toDate (t : Time) : Date := t / 1000

/-- A SHA-256 digest, as the number its hexadecimal digits spell. -/
abbrev Digest := ℕ

/-- The values handed to `JSON.stringify` before hashing. The three kinds of string are kept
apart; no member is of one kind in one command and of another in the next. -/
inductive Json
  | null
  | text (s : String)
  | uuid (u : UuidText)
  | currency (c : Currency)
  | decimal (d : Text)
  | array (elements : List Json)
  | object (members : List (String × Json))

/-- `NUMERIC(28,8)`. -/
abbrev Money := Numeric 28 8

/-- `NUMERIC(28,12)`. -/
abbrev Rate := Numeric 28 12

/-- `^(?:0|[1-9]\d{0,19})\.\d{1,8}$` -/
def isMoney (t : Text) : Bool :=
  decide (0 ≤ t.units) && decide (1 ≤ t.places) && decide (t.places ≤ 8) &&
    decide (t.units < 10 ^ (20 + t.places))

/-- `^(?:0|[1-9]\d{0,19})\.\d{1,12}$` -/
def isRate (t : Text) : Bool :=
  decide (0 ≤ t.units) && decide (1 ≤ t.places) && decide (t.places ≤ 12) &&
    decide (t.units < 10 ^ (20 + t.places))

/-- The text of an amount that a request body may carry. -/
abbrev MoneyText := { t : Text // isMoney t = true }

/-- The places a decimal text can have: `decimal(text)` is on the grid of the column. -/
theorem value_mul_pow_of_places {t : Text} {scale : ℕ} (h : t.places ≤ scale) :
    t.value * 10 ^ scale = ((t.units * 10 ^ (scale - t.places) : ℤ) : ℚ) := by
  obtain ⟨k, rfl⟩ := Nat.exists_eq_add_of_le h
  rw [Text.value, Nat.add_sub_cancel_left]
  push_cast
  rw [pow_add]
  field_simp

/-- Every amount of a request fits the column, exactly. -/
theorem exists_money {t : Text} (h : isMoney t = true) :
    ∃ m : Money, Numeric.ofRat? t.value = some m ∧ m.value = t.value := by
  simp only [isMoney, Bool.and_eq_true, decide_eq_true_eq] at h
  obtain ⟨⟨⟨hnonneg, -⟩, hplaces⟩, hlt⟩ := h
  have hgrid := value_mul_pow_of_places hplaces
  have hbound : |roundHalfUp (t.value * 10 ^ 8)| < 10 ^ 28 := by
    rw [roundHalfUp_of_int hgrid, abs_of_nonneg (by positivity)]
    calc t.units * 10 ^ (8 - t.places)
        < 10 ^ (20 + t.places) * 10 ^ (8 - t.places) :=
          mul_lt_mul_of_pos_right hlt (by positivity)
      _ = 10 ^ 28 := by
          rw [← pow_add]
          congr 1
          omega
  have hsome : (Numeric.ofRat? t.value : Option Money) =
      some ⟨roundHalfUp (t.value * 10 ^ 8), hbound⟩ := dif_pos hbound
  exact ⟨_, hsome, Numeric.value_of_ofRat? hsome hgrid⟩

inductive QuoteStatus
  | active
  | consumed
  | expired
deriving DecidableEq, Repr

/-- `QuoteResponseDto`, the answer of the FX service about a quote. -/
structure QuoteResponse where
  quoteId : Uuid
  sourceCurrency : Currency
  targetCurrency : Currency
  sourceAmount : Text
  targetAmount : Text
  rate : Text
  status : QuoteStatus
  issuedAt : Date
  expiresAt : Date
  valid : Bool
  remainingSeconds : ℕ
deriving DecidableEq, Repr

/-- `ConsumeQuoteDto`, what Transaction asks FX to consume a quote for. -/
structure ConsumeQuote where
  transferId : UuidText
  clientId : Principal
  sourceCurrency : Currency
  targetCurrency : Currency
  sourceAmount : Text
deriving DecidableEq, Repr

abbrev EntryDirection := DoubleEntry.Side

inductive PostingType
  | transfer
  | fxTransfer
  | fee
  | reversal
  | funding
deriving DecidableEq, Repr

structure PostingEntry where
  walletId : UuidText
  direction : EntryDirection
  amount : Text
  currency : Currency
deriving DecidableEq, Repr

/-- `PostingCommand`, what Transaction asks the Ledger to post. -/
structure PostingCommand where
  externalReference : UuidText
  requestId : UuidText
  postingType : PostingType
  sourceCurrency : Currency
  targetCurrency : Currency
  sourceAmount : Text
  targetAmount : Text
  fxQuoteId : Option UuidText
  lockedFxRate : Option Text
  entries : List PostingEntry
deriving DecidableEq, Repr

structure PostedEntry where
  ledgerAccountId : Uuid
  direction : EntryDirection
  amount : Text
  currency : Currency
deriving DecidableEq, Repr

/-- `LedgerPostingResponseDto`; its status is always `POSTED`. -/
structure LedgerPosting where
  id : Uuid
  externalReference : Uuid
  postingType : PostingType
  entries : List PostedEntry
deriving DecidableEq, Repr

inductive WalletStatus
  | pending
  | active
  | frozen
  | closed
deriving DecidableEq, Repr

/-- The answer of `GET /internal/wallets/{id}/validation`. -/
structure WalletValidation where
  walletId : Uuid
  userId : Uuid
  ownerExternalRef : Principal
  currency : Currency
  status : WalletStatus
  ledgerAccountId : Option Uuid
deriving DecidableEq, Repr

/-- An HTTP exception as a service throws it. -/
structure HttpError where
  status : ℕ
  code : String
  message : String
deriving DecidableEq, Repr

/-- What an internal client throws: no answer within its timeout, or an error answer. -/
inductive UpstreamError
  | unavailable
  | http (error : HttpError)
deriving DecidableEq, Repr

/-- What an internal client returns. A 2xx answer whose body cannot be read is the object
without members, `none`. -/
abbrev Reply (α : Type) := Except UpstreamError (Option α)

/-- What `HttpExceptionFilter` makes of an exception that is not an `HttpException`. -/
def internalServerError : HttpError :=
  ⟨500, "INTERNAL_SERVER_ERROR", "An unexpected error occurred."⟩

end NovaPay
