import NovaPay.Library.Rounding
import NovaPay.Ledger.Balances

/-!
# The totals of a posting

`validateResolved` adds the entries of a posting up with `Prisma.Decimal`, the deferred trigger with
`NUMERIC`. Both are compared here with the exact totals.
-/

namespace NovaPay.Ledger

open DecimalArithmetic DoubleEntry Relational

variable {config : Config} {db : Database} {command : PostingCommand} {failBeforeCommit : Bool}
  {posting : ResolvedPosting} {commandHash : Digest} {id : Uuid} {tx : LedgerTransaction}
  {currency : Currency} {direction : EntryDirection} {entries : List ResolvedEntry}

/-! ### The amounts of a command and of what it resolves to -/

def amounts (command : PostingCommand) : List Text :=
  command.sourceAmount :: command.targetAmount :: command.entries.map PostingEntry.amount

/-- The amounts of a resolved posting are those of its command. -/
theorem Resolved.forall_amounts {P : ℚ → Prop}
    (h : Resolved config db (.post command failBeforeCommit) posting commandHash) :
    (∀ amount ∈ amounts command, P amount.value) ↔
      P posting.sourceAmount ∧ P posting.targetAmount ∧ ∀ e ∈ posting.entries, P e.amount := by
  cases h with
  | @post _ _ entries clearing valid shape resolves clears =>
    simp only [amounts, List.forall_mem_cons, List.forall_mem_map]
    constructor
    · rintro ⟨hsource, htarget, hentries⟩
      refine ⟨hsource, htarget, fun e he => ?_⟩
      rcases List.mem_append.mp he with he | he
      · obtain ⟨entry, hentry, hr⟩ := exists_of_forall₂ resolves e he
        rw [hr.amount]
        exact hentries entry hentry
      · rcases clears with ⟨-, rfl⟩ | ⟨-, sourceId, targetId, -, -, rfl⟩
        · cases he
        · simp only [clearingEntries, List.mem_cons, List.not_mem_nil, or_false] at he
          rcases he with rfl | rfl
          · exact hsource
          · exact htarget
    · rintro ⟨hsource, htarget, hentries⟩
      refine ⟨hsource, htarget, fun entry hentry => ?_⟩
      obtain ⟨e, he, hr⟩ := exists_of_forall₂ resolves.flip entry hentry
      rw [← hr.amount]
      exact hentries e (List.mem_append_left _ he)

theorem value_nonneg_of_isMoney {t : Text} (h : isMoney t = true) : 0 ≤ t.value := by
  simp only [isMoney, Bool.and_eq_true, decide_eq_true_eq] at h
  have hunits : (0 : ℚ) ≤ t.units := by exact_mod_cast h.1.1.1
  rw [Text.value]
  positivity

theorem isMoney_of_mem_amounts (valid : validPosting command = true) :
    ∀ amount ∈ amounts command, isMoney amount = true := by
  simp only [validPosting, Bool.and_eq_true, List.all_eq_true] at valid
  obtain ⟨⟨⟨⟨⟨⟨-, hsource⟩, htarget⟩, -⟩, -⟩, -⟩, hentries⟩ := valid
  simp only [amounts, List.forall_mem_cons, List.forall_mem_map]
  exact ⟨hsource, htarget, hentries⟩

theorem Resolved.valid (h : Resolved config db (.post command failBeforeCommit) posting commandHash) :
    validPosting command = true := by
  cases h with
  | post valid => exact valid

theorem Resolved.nonneg
    (h : Resolved config db (.post command failBeforeCommit) posting commandHash) :
    0 ≤ posting.sourceAmount ∧ 0 ≤ posting.targetAmount ∧ ∀ e ∈ posting.entries, 0 ≤ e.amount :=
  h.forall_amounts.mp fun amount hamount =>
    value_nonneg_of_isMoney (isMoney_of_mem_amounts h.valid amount hamount)

theorem Resolved.rate_nonneg
    (h : Resolved config db (.post command failBeforeCommit) posting commandHash) :
    ∀ r ∈ posting.lockedFxRate, 0 ≤ r := by
  have hvalid := h.valid
  cases h with
  | post =>
    intro r hr
    obtain ⟨t, ht, rfl⟩ := Option.map_eq_some_iff.mp hr
    simp only [validPosting, Bool.and_eq_true] at hvalid
    have hrate := hvalid.1.1.1.2
    rw [ht] at hrate
    simp only [Option.all_some, isRate, Bool.and_eq_true, decide_eq_true_eq] at hrate
    have hunits : (0 : ℚ) ≤ t.units := by exact_mod_cast hrate.1.1.1
    rw [Text.value]
    positivity

theorem Resolved.two_le_length
    (h : Resolved config db (.post command failBeforeCommit) posting commandHash) :
    2 ≤ posting.entries.length := by
  have hvalid := h.valid
  cases h with
  | post valid shape resolves clears =>
    simp only [validPosting, Bool.and_eq_true, decide_eq_true_eq] at hvalid
    have hlength := resolves.length_eq
    simp only [resolvePosting, List.length_append]
    omega

/-! ### Exact and rounded totals -/

/-- The amounts of one side in a currency, in the order of the entries. -/
def sideAmounts (currency : Currency) (direction : EntryDirection) (entries : List ResolvedEntry) :
    List ℚ :=
  (entries.filter fun e => decide (e.currency = currency) && decide (e.direction = direction)).map
    ResolvedEntry.amount

def exactTotal (currency : Currency) (direction : EntryDirection) (entries : List ResolvedEntry) : ℚ :=
  (sideAmounts currency direction entries).sum

theorem resolvedTotal_eq :
    resolvedTotal currency direction entries = sumSig 20 (sideAmounts currency direction entries) := by
  rw [sideAmounts, sumSig, List.foldl_map]
  rfl

/-- Every total that `validateResolved` accumulates has at most twenty significant digits after
every entry. -/
def TotalsFit (posting : ResolvedPosting) : Prop :=
  ∀ currency direction, PartialSumsFit 20 0 (sideAmounts currency direction posting.entries)

theorem resolvedTotal_of_fits (h : TotalsFit posting) (currency : Currency)
    (direction : EntryDirection) : resolvedTotal currency direction posting.entries =
      exactTotal currency direction posting.entries := by
  rw [resolvedTotal_eq, sumSig_of_fits (h currency direction)]
  rfl

/-- Totals that balance in each currency and are the ones the posting declares. -/
structure TotalsAgree (total : Currency → EntryDirection → List ResolvedEntry → ℚ)
    (posting : ResolvedPosting) : Prop where
  balanced : ∀ e ∈ posting.entries,
    total e.currency .debit posting.entries = total e.currency .credit posting.entries
  source_mem : ∃ e ∈ posting.entries, e.currency = posting.sourceCurrency
  source : total posting.sourceCurrency .debit posting.entries = posting.sourceAmount
  target_mem : ∃ e ∈ posting.entries, e.currency = posting.targetCurrency
  target : total posting.targetCurrency .credit posting.entries = posting.targetAmount

theorem totalsAgree_iff_of_fits (h : TotalsFit posting) :
    TotalsAgree resolvedTotal posting ↔ TotalsAgree exactTotal posting := by
  have heq := resolvedTotal_of_fits h
  constructor
  · intro ⟨hbalanced, hsm, hs, htm, ht⟩
    exact ⟨fun e he => by rw [← heq, ← heq, hbalanced e he], hsm, heq _ _ ▸ hs, htm, heq _ _ ▸ ht⟩
  · intro ⟨hbalanced, hsm, hs, htm, ht⟩
    exact ⟨fun e he => by rw [heq, heq, hbalanced e he], hsm, heq _ _ ▸ hs, htm, heq _ _ ▸ ht⟩

/-- What `validateResolved` accepts. -/
theorem validateResolved_eq_ok_iff : validateResolved posting = .ok () ↔
    (0 ≤ posting.sourceAmount ∧ 0 ≤ posting.targetAmount ∧ ∀ e ∈ posting.entries, 0 ≤ e.amount) ∧
      (∀ r ∈ posting.lockedFxRate, 0 ≤ r) ∧ TotalsAgree resolvedTotal posting := by
  have hrate : posting.lockedFxRate.any (fun r => decide (r < 0)) = true ↔
      ¬ ∀ r ∈ posting.lockedFxRate, 0 ≤ r := by
    cases posting.lockedFxRate <;> simp
  have hentries : posting.entries.any (fun e => decide (e.amount < 0)) = true ↔
      ¬ ∀ e ∈ posting.entries, 0 ≤ e.amount := by
    simp [List.any_eq_true]
  have hbalanced : (posting.entries.any fun e => decide (resolvedTotal e.currency .debit posting.entries ≠
      resolvedTotal e.currency .credit posting.entries)) = true ↔
      ¬ ∀ e ∈ posting.entries, resolvedTotal e.currency .debit posting.entries =
        resolvedTotal e.currency .credit posting.entries := by
    simp [List.any_eq_true]
  unfold validateResolved
  split
  · next hsign =>
    refine ⟨fun h => (by cases h), fun ⟨⟨hs, ht, _⟩, _⟩ => ?_⟩
    rcases hsign with hneg | hneg
    · exact absurd hs hneg.not_ge
    · exact absurd ht hneg.not_ge
  next hsign =>
  simp only [not_or, not_lt] at hsign
  split
  · next hneg => exact ⟨fun h => (by cases h), fun ⟨_, hr, _⟩ => absurd hr (hrate.mp hneg)⟩
  next hr =>
  split
  · next hneg => exact ⟨fun h => (by cases h), fun ⟨⟨_, _, he⟩, _⟩ => absurd he (hentries.mp hneg)⟩
  next he =>
  split
  · next hun => exact ⟨fun h => (by cases h), fun ⟨_, _, hb⟩ => absurd hb.balanced (hbalanced.mp hun)⟩
  next hb =>
  rw [hrate, not_not] at hr
  rw [hentries, not_not] at he
  rw [hbalanced, not_not] at hb
  split
  · next htotal =>
    refine ⟨fun h => (by cases h), fun ⟨_, _, h⟩ => ?_⟩
    simp only [Bool.not_eq_true', Bool.and_eq_false_iff, List.any_eq_false, decide_eq_true_eq,
      decide_eq_false_iff_not] at htotal
    obtain ⟨e, hmem, hsource⟩ := h.source_mem
    obtain ⟨e', hmem', htarget⟩ := h.target_mem
    rcases htotal with ((hno | hne) | hno) | hne
    · exact absurd hsource (hno e hmem)
    · exact absurd h.source hne
    · exact absurd htarget (hno e' hmem')
    · exact absurd h.target hne
  · next htotal =>
    simp only [Bool.not_eq_true', Bool.not_eq_false, Bool.and_eq_true, List.any_eq_true,
      decide_eq_true_eq] at htotal
    obtain ⟨⟨⟨hsource, hs⟩, htarget⟩, ht⟩ := htotal
    exact ⟨fun _ => ⟨⟨hsign.1, hsign.2, he⟩, hr, hb, hsource, hs, htarget, ht⟩, fun _ => rfl⟩

/-- A command of the API is accepted when its rounded totals agree. -/
theorem Resolved.accepted_iff
    (h : Resolved config db (.post command failBeforeCommit) posting commandHash) :
    validateResolved posting = .ok () ↔ TotalsAgree resolvedTotal posting := by
  rw [validateResolved_eq_ok_iff]
  exact ⟨fun hok => hok.2.2, fun hagree => ⟨h.nonneg, h.rate_nonneg, hagree⟩⟩

/-- A command of the API is refused for its totals only: no amount of it has a sign. -/
theorem Resolved.validateResolved_error {error : HttpError}
    (h : Resolved config db (.post command failBeforeCommit) posting commandHash)
    (herror : validateResolved posting = .error error) :
    error = unbalancedPosting ∨ error = postingTotalMismatch := by
  obtain ⟨hsource, htarget, hentries⟩ := h.nonneg
  have hrate := h.rate_nonneg
  unfold validateResolved at herror
  rw [if_neg (not_or.mpr ⟨hsource.not_gt, htarget.not_gt⟩)] at herror
  split at herror
  · next hneg =>
    obtain ⟨r, hr, hlt⟩ := (Option.any_eq_true _ _).mp hneg
    exact absurd (hrate r hr) (of_decide_eq_true hlt).not_ge
  split at herror
  · next hneg =>
    obtain ⟨e, he, hlt⟩ := List.any_eq_true.mp hneg
    exact absurd (hentries e he) (of_decide_eq_true hlt).not_ge
  split at herror
  · cases herror
    exact .inl rfl
  split at herror
  · cases herror
    exact .inr rfl
  · cases herror

/-! ### The exact rule -/

/-- The rule of a posting in exact arithmetic. -/
structure MeetsExactly (posting : ResolvedPosting) : Prop where
  positive : 0 < posting.sourceAmount ∧ 0 < posting.targetAmount ∧ ∀ e ∈ posting.entries, 0 < e.amount
  balanced : ∀ currency,
    exactTotal currency .debit posting.entries = exactTotal currency .credit posting.entries
  source : exactTotal posting.sourceCurrency .debit posting.entries = posting.sourceAmount
  target : exactTotal posting.targetCurrency .credit posting.entries = posting.targetAmount

theorem exactTotal_of_absent (h : ∀ e ∈ entries, e.currency ≠ currency) :
    exactTotal currency direction entries = 0 := by
  have hnil : (entries.filter fun e => decide (e.currency = currency) &&
      decide (e.direction = direction)) = [] := by
    rw [List.filter_eq_nil_iff]
    intro e he
    simp [h e he]
  rw [exactTotal, sideAmounts, hnil]
  rfl

/-- A total that is not zero has an entry. -/
theorem exists_of_exactTotal_pos (h : 0 < exactTotal currency direction entries) :
    ∃ e ∈ entries, e.currency = currency := by
  by_contra hnone
  push Not at hnone
  rw [exactTotal_of_absent hnone] at h
  exact lt_irrefl 0 h

theorem meetsExactly_iff : MeetsExactly posting ↔
    (0 < posting.sourceAmount ∧ 0 < posting.targetAmount ∧ ∀ e ∈ posting.entries, 0 < e.amount) ∧
      TotalsAgree exactTotal posting := by
  constructor
  · intro h
    obtain ⟨hsource, htarget, -⟩ := h.positive
    exact ⟨h.positive, fun e _ => h.balanced e.currency,
      exists_of_exactTotal_pos (h.source.symm ▸ hsource), h.source,
      exists_of_exactTotal_pos (h.target.symm ▸ htarget), h.target⟩
  · intro ⟨hpositive, h⟩
    refine ⟨hpositive, fun currency => ?_, h.source, h.target⟩
    by_cases hmem : ∃ e ∈ posting.entries, e.currency = currency
    · obtain ⟨e, he, rfl⟩ := hmem
      exact h.balanced e he
    · push Not at hmem
      rw [exactTotal_of_absent hmem, exactTotal_of_absent hmem]

/-! ### The columns and the trigger -/

/-- The CHECK constraints on the amounts of a transaction and its entries. -/
def AmountsChecked (tx : LedgerTransaction) : Prop :=
  0 < tx.sourceAmount.value ∧ 0 < tx.targetAmount.value ∧ ∀ e ∈ tx.entries, 0 < e.amount.value

/-- The trigger adds up what `validateResolved` should have added up. -/
theorem total_of_stores {rows : List LedgerEntry} (h : List.Forall₂ Stores entries rows)
    (hheld : ∀ e ∈ entries, ∃ m : Money, m.value = e.amount) (currency : Currency)
    (direction : EntryDirection) :
    journal.total direction (entriesIn currency rows) = exactTotal currency direction entries := by
  induction h with
  | nil => rfl
  | @cons e row entries rows hstores _ ih =>
    obtain ⟨m, hm⟩ := hheld e List.mem_cons_self
    have hamount : journal.amount row = e.amount := by
      have hrow := hstores.amount
      rw [← hm, Numeric.ofRat?_value] at hrow
      exact (congrArg Numeric.value (Option.some.inj hrow)).symm.trans hm
    have hside : journal.side row = e.direction := hstores.direction
    have hrest := ih fun e' he' => hheld e' (List.mem_cons_of_mem e he')
    simp only [Journal.total, entriesIn, exactTotal, sideAmounts, List.filter_filter] at hrest ⊢
    by_cases hc : e.currency = currency <;> by_cases hd : e.direction = direction <;>
      simp [hstores.currency, hc, hside, hd, hamount, hrest]

/-- Every amount of a posting fits its column. -/
theorem Resolved.amounts_held {request : Request} (h : Resolved config db request posting commandHash) :
    (∃ m : Money, m.value = posting.sourceAmount) ∧ (∃ m : Money, m.value = posting.targetAmount) := by
  have hmoney : ∀ t : Text, isMoney t = true → ∃ m : Money, m.value = t.value := fun t ht =>
    (exists_money ht).imp fun _ h => h.2
  cases h with
  | @post command _ entries clearing valid =>
    have hvalid := isMoney_of_mem_amounts valid
    exact ⟨hmoney command.sourceAmount (hvalid _ (by simp [amounts])),
      hmoney command.targetAmount (hvalid _ (by simp [amounts]))⟩
  | @fund command =>
    exact ⟨hmoney _ command.amount.property, hmoney _ command.amount.property⟩
  | @reverse command original => exact ⟨⟨original.sourceAmount, rfl⟩, original.targetAmount, rfl⟩

/-- What the columns hold of a posting is what it says. -/
theorem Resolved.amounts_of_stores {request : Request}
    (h : Resolved config db request posting commandHash)
    (hok : StoresPosting posting commandHash id tx) :
    tx.sourceAmount.value = posting.sourceAmount ∧ tx.targetAmount.value = posting.targetAmount ∧
      List.Forall₂ (fun e row => Stores e row ∧ row.amount.value = e.amount) posting.entries tx.entries := by
  have hheld : ∀ {x : ℚ} {m : Money}, (∃ n : Money, n.value = x) → Numeric.ofRat? x = some m →
      m.value = x := by
    rintro x m ⟨n, rfl⟩ hx
    rw [Numeric.ofRat?_value] at hx
    rw [Option.some.inj hx]
  obtain ⟨hsource, htarget⟩ := h.amounts_held
  refine ⟨hheld hsource hok.sourceAmount, hheld htarget hok.targetAmount, ?_⟩
  refine List.Forall₂.imp ?_ ((List.forall₂_and_left _ _).mpr ⟨h.held, hok.entries⟩)
  intro e row ⟨he, hrow⟩
  exact ⟨hrow, hheld he hrow.amount⟩

theorem Resolved.amountsChecked
    (h : Resolved config db (.post command failBeforeCommit) posting commandHash)
    (hpositive : 0 < posting.sourceAmount ∧ 0 < posting.targetAmount ∧ ∀ e ∈ posting.entries, 0 < e.amount)
    (hstored : storePosting posting commandHash id = some tx) : AmountsChecked tx := by
  obtain ⟨hsource, htarget, hentries⟩ := h.amounts_of_stores (storePosting_ok hstored)
  refine ⟨hsource ▸ hpositive.1, htarget ▸ hpositive.2.1, fun row hrow => ?_⟩
  obtain ⟨e, he, -, hamount⟩ := exists_of_forall₂ hentries row hrow
  rw [hamount]
  exact hpositive.2.2 e he

/-- The deferred trigger lets a posting through where it balances exactly. -/
theorem Resolved.verifyBalancedPosting_iff
    (h : Resolved config db (.post command failBeforeCommit) posting commandHash)
    (hstored : storePosting posting commandHash id = some tx) :
    verifyBalancedPosting tx.entries = true ↔ ∀ currency,
      exactTotal currency .debit posting.entries = exactTotal currency .credit posting.entries := by
  have hstores := (storePosting_ok hstored).entries
  have hlength := hstores.length_eq
  simp only [verifyBalancedPosting, Bool.and_eq_true, List.all_eq_true, decide_eq_true_eq,
    total_of_stores hstores h.held]
  constructor
  · rintro ⟨-, hall⟩ currency
    by_cases hmem : ∃ e ∈ posting.entries, e.currency = currency
    · obtain ⟨e, he, rfl⟩ := hmem
      obtain ⟨row, hrow, hr⟩ := exists_of_forall₂ hstores.flip e he
      exact hall e.currency (List.mem_map.mpr ⟨row, hrow, hr.currency⟩)
    · push Not at hmem
      rw [exactTotal_of_absent hmem, exactTotal_of_absent hmem]
  · exact fun hbalanced => ⟨hlength ▸ h.two_le_length, fun currency _ => hbalanced currency⟩

/-! ### Where the two rules agree -/

/-- `validateResolved` accepts what meets the exact rule, and the database nothing less. -/
structure ValidatesExactly (posting : ResolvedPosting) (commandHash : Digest) : Prop where
  accepts : validateResolved posting = .ok () ↔ MeetsExactly posting
  stored : validateResolved posting = .ok () → ∀ id tx,
    storePosting posting commandHash id = some tx →
      AmountsChecked tx ∧ Ledger.verifyBalancedPosting tx.entries = true

/-- A rounded total has at most twenty digits, so it is not the longer total of a posting that meets
the exact rule. -/
theorem Resolved.fits_of_accepted
    (h : Resolved config db (.post command failBeforeCommit) posting commandHash)
    (hok : validateResolved posting = .ok ()) :
    Fits 20 posting.sourceAmount ∧ Fits 20 posting.targetAmount := by
  have hfits : ∀ currency direction, Fits 20 (resolvedTotal currency direction posting.entries) := by
    intro currency direction
    rw [resolvedTotal_eq]
    refine fits_sumSig (by norm_num) fun x hx => ?_
    obtain ⟨e, he, rfl⟩ := List.mem_map.mp hx
    exact h.nonneg.2.2 e (List.mem_filter.mp he).1
  have hagree := h.accepted_iff.mp hok
  exact ⟨hagree.source ▸ hfits _ _, hagree.target ▸ hfits _ _⟩

/-- Where no total loses a digit, the two rules agree but for amounts of zero. Where the declared
amounts are longer than twenty digits, they never agree on a posting that meets the exact one. -/
theorem validated_where_totals_fit
    (h : Resolved config db (.post command failBeforeCommit) posting commandHash) :
    (TotalsFit posting → (ValidatesExactly posting commandHash ↔
      ((∀ amount ∈ amounts command, amount.value ≠ 0) ∨ ¬ TotalsAgree exactTotal posting))) ∧
    (MeetsExactly posting → ¬ (Fits 20 posting.sourceAmount ∧ Fits 20 posting.targetAmount) →
      ¬ ValidatesExactly posting commandHash) := by
  refine ⟨fun hfits => ?_, fun hmeets hlong hexact =>
    hlong (h.fits_of_accepted (hexact.accepts.mpr hmeets))⟩
  have haccepted : validateResolved posting = .ok () ↔ TotalsAgree exactTotal posting :=
    h.accepted_iff.trans (totalsAgree_iff_of_fits hfits)
  constructor
  · intro hexact
    by_cases hagree : TotalsAgree exactTotal posting
    · left
      obtain ⟨hsource, htarget, hentries⟩ := (hexact.accepts.mp (haccepted.mpr hagree)).positive
      exact (h.forall_amounts (P := fun x => x ≠ 0)).mpr
        ⟨hsource.ne', htarget.ne', fun e he => (hentries e he).ne'⟩
    · exact .inr hagree
  · intro hcond
    have hmeets : TotalsAgree exactTotal posting → MeetsExactly posting := by
      intro hagree
      have hne := hcond.resolve_right (not_not.mpr hagree)
      obtain ⟨hs, ht, he⟩ := (h.forall_amounts (P := fun x => x ≠ 0)).mp hne
      obtain ⟨hs', ht', he'⟩ := h.nonneg
      exact meetsExactly_iff.mpr ⟨⟨lt_of_le_of_ne hs' hs.symm, lt_of_le_of_ne ht' ht.symm,
        fun e hmem => lt_of_le_of_ne (he' e hmem) (he e hmem).symm⟩, hagree⟩
    refine ⟨?_, fun hok id tx hstored => ?_⟩
    · rw [haccepted]
      exact ⟨hmeets, fun hm => (meetsExactly_iff.mp hm).2⟩
    · have hm := hmeets (haccepted.mp hok)
      exact ⟨h.amountsChecked hm.positive hstored, (h.verifyBalancedPosting_iff hstored).mpr hm.balanced⟩

def paidAccounts : Database where
  accounts := ⟨[customerAccount 1 11 dollars, customerAccount 2 12 dollars], by decide, by decide⟩
  balances := ⟨[⟨1, dollars, Numeric.zero, 0⟩, ⟨2, dollars, Numeric.zero, 0⟩], by decide, by decide⟩
  transactions := Database.empty.transactions

/-- A payment of an amount from one wallet to another. -/
def paymentOf (amount : Text) : PostingCommand where
  externalReference := ⟨5, 0⟩
  requestId := ⟨0, 0⟩
  postingType := .transfer
  sourceCurrency := dollars
  targetCurrency := dollars
  sourceAmount := amount
  targetAmount := amount
  fxQuoteId := none
  lockedFxRate := none
  entries := [⟨⟨11, 0⟩, .debit, amount, dollars⟩, ⟨⟨12, 0⟩, .credit, amount, dollars⟩]

def resolvedPayment (amount : Text) : ResolvedPosting :=
  resolvePosting (paymentOf amount)
    [⟨1, .debit, amount.value, dollars, none, none⟩, ⟨2, .credit, amount.value, dollars, none, none⟩]

theorem resolved_paymentOf {amount : Text} (h : isMoney amount = true) :
    Resolved fundingConfig paidAccounts (.post (paymentOf amount) false) (resolvedPayment amount)
      (postHash fundingConfig (paymentOf amount)) := by
  have hvalid : validPosting (paymentOf amount) = true := by simp [validPosting, paymentOf, h]
  have hdebit : Resolves paidAccounts (paymentOf amount) ⟨⟨11, 0⟩, .debit, amount, dollars⟩
      ⟨1, .debit, amount.value, dollars, none, none⟩ :=
    ⟨⟨customerAccount 1 11 dollars, List.mem_cons_self, rfl, rfl⟩, rfl, rfl, rfl, rfl, rfl⟩
  have hcredit : Resolves paidAccounts (paymentOf amount) ⟨⟨12, 0⟩, .credit, amount, dollars⟩
      ⟨2, .credit, amount.value, dollars, none, none⟩ :=
    ⟨⟨customerAccount 2 12 dollars, List.mem_cons_of_mem _ List.mem_cons_self, rfl, rfl⟩, rfl, rfl,
      rfl, rfl, rfl⟩
  have hresolved := @Resolved.post fundingConfig paidAccounts (paymentOf amount) false _ [] hvalid rfl
    (.cons hdebit (.cons hcredit .nil)) (.inl ⟨fun h => (by cases h), rfl⟩)
  exact hresolved

theorem exactTotal_resolvedPayment (amount : Text) (direction : EntryDirection) :
    exactTotal dollars direction (resolvedPayment amount).entries = amount.value := by
  cases direction <;> simp [exactTotal, sideAmounts, resolvedPayment, resolvePosting]

theorem totalsAgree_resolvedPayment (amount : Text) :
    TotalsAgree exactTotal (resolvedPayment amount) := by
  have htotal := exactTotal_resolvedPayment amount
  refine ⟨fun e he => ?_, ⟨_, List.mem_cons_self, rfl⟩, htotal .debit, ⟨_, List.mem_cons_self, rfl⟩,
    htotal .credit⟩
  have hcurrency : e.currency = dollars := by
    simp only [resolvedPayment, resolvePosting, List.mem_cons, List.not_mem_nil, or_false] at he
    rcases he with rfl | rfl <;> rfl
  rw [hcurrency, htotal .debit, htotal .credit]

theorem totalsFit_resolvedPayment {amount : Text} (h : Fits 20 amount.value) :
    TotalsFit (resolvedPayment amount) := by
  have hfits : PartialSumsFit 20 0 [amount.value] := ⟨(zero_add amount.value).symm ▸ h, trivial⟩
  intro currency direction
  by_cases hc : dollars = currency
  · cases direction
    · simpa [sideAmounts, resolvedPayment, resolvePosting, hc] using hfits
    · simpa [sideAmounts, resolvedPayment, resolvePosting, hc] using hfits
  · simp [sideAmounts, resolvedPayment, resolvePosting, hc, PartialSumsFit]

/-- The theorem at a payment of ten dollars. -/
theorem validated_where_totals_fit_tenDollars :
    ValidatesExactly (resolvedPayment tenDollars.val) (postHash fundingConfig (paymentOf tenDollars.val)) ↔
      ((∀ amount ∈ amounts (paymentOf tenDollars.val), amount.value ≠ 0) ∨
        ¬ TotalsAgree exactTotal (resolvedPayment tenDollars.val)) :=
  (validated_where_totals_fit (resolved_paymentOf tenDollars.property)).1
    (totalsFit_resolvedPayment ⟨1, 1, by decide, by norm_num [tenDollars, Text.value]⟩)

/-- The last of the 22 digits of 10000000000000.00000001 is lost in the totals. -/
def wideAmount : Text := ⟨1000000000000000000001, 8⟩

/-- A payment of the wide amount meets the exact rule and is refused. -/
theorem refuses_wideAmount : ¬ ∀ config db command failBeforeCommit posting commandHash,
    Resolved config db (.post command failBeforeCommit) posting commandHash →
      ValidatesExactly posting commandHash := by
  intro h
  have hexact := h _ _ _ _ _ _ (@resolved_paymentOf wideAmount (by decide))
  have hpositive : 0 < wideAmount.value := by norm_num [wideAmount, Text.value]
  have hmeets : MeetsExactly (resolvedPayment wideAmount) := by
    refine meetsExactly_iff.mpr ⟨⟨hpositive, hpositive, fun e he => ?_⟩, totalsAgree_resolvedPayment _⟩
    simp only [resolvedPayment, resolvePosting, List.mem_cons, List.not_mem_nil, or_false] at he
    rcases he with rfl | rfl <;> exact hpositive
  have hok := (validateResolved_eq_ok_iff.mp (hexact.accepts.mpr hmeets)).2.2.source
  have hne : resolvedTotal dollars .debit (resolvedPayment wideAmount).entries ≠ wideAmount.value := by
    decide +kernel
  exact hne hok

end NovaPay.Ledger
