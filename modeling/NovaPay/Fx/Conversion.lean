import NovaPay.Fx.Consumption
import NovaPay.Library.Rounding

/-!
# The amount of a quote

`create` as a whole, from the rate of the provider to the row, and when the amount of the row is the
exact product, rounded once.
-/

namespace NovaPay.Fx

open DecimalArithmetic Relational

variable {quotes quotes' : Quotes} {id : Uuid} {now : Date} {clientId : Principal} {command : CreateQuote}
  {rates : Currency → Currency → Option Text} {rate : Text} {providerReference : String} {x y : ℚ}

def dollar : Currency := (20, 18, 3)

def euro : Currency := (4, 20, 17)

def pound : Currency := (6, 1, 15)

def rupee : Currency := (15, 10, 17)

/-- `RATES` -/
def supportedRates : List ((Currency × Currency) × Text) := [
  ((dollar, euro), ⟨920000000000, 12⟩),
  ((euro, dollar), ⟨1086956521739, 12⟩),
  ((dollar, pound), ⟨790000000000, 12⟩),
  ((pound, dollar), ⟨1265822784810, 12⟩),
  ((dollar, rupee), ⟨278500000000000, 12⟩),
  ((rupee, dollar), ⟨3590664273, 12⟩)]

def supportedRate (sourceCurrency targetCurrency : Currency) : Option Text :=
  supportedRates.lookup (sourceCurrency, targetCurrency)

def providerUnavailable : HttpError :=
  ⟨503, "FX_PROVIDER_UNAVAILABLE", "The FX provider is temporarily unavailable."⟩

def unsupportedCurrencyPair : HttpError :=
  ⟨422, "UNSUPPORTED_CURRENCY_PAIR", "The requested currency pair is not supported."⟩

/-- `freshRate` of `DeterministicFxProvider`, for any table of rates. -/
def freshRate (rates : Currency → Currency → Option Text) (unavailable : Bool)
    (providerReference : String) (sourceCurrency targetCurrency : Currency) :
    Except HttpError FreshRate :=
  if unavailable then .error providerUnavailable
  else
    match rates sourceCurrency targetCurrency with
    | some rate => .ok ⟨rate, providerReference⟩
    | none => .error unsupportedCurrencyPair

/-- `QuoteService.create`, with the id and the clock of its transaction. -/
def create (provider : Currency → Currency → Except HttpError FreshRate) (id : Uuid) (now : Date)
    (quotes : Quotes) (clientId : Principal) (command : CreateQuote) : Quotes × Next :=
  if command.sourceCurrency = command.targetCurrency then
    (quotes, .answer (.error sameCurrencyQuote))
  else
    match provider command.sourceCurrency command.targetCurrency with
    | .ok fresh => runInsert { id := id, fresh := fresh } quotes clientId command now
    | .error error => (quotes, .answer (.error error))

/-! ### The product and its roundings -/

/-- What keeps the conversion of an amount exact: the product has at most twenty significant digits
where these end before the eighth place, or the rounding to twenty digits stays below the next tie;
and the rounded product and the rate fit their columns. -/
structure ConvertsOnce (sourceAmount rate : ℚ) : Prop where
  fine : sourceAmount * rate < 10 ^ 11 → sourceAmount * rate +
    10 ^ (exponent (sourceAmount * rate) - 19) / 2 < nextTie 8 (sourceAmount * rate)
  coarse : 10 ^ 11 ≤ sourceAmount * rate → DecimalArithmetic.Fits 20 (toFixed 8 (sourceAmount * rate)).value
  positive : 1 / 2 ≤ sourceAmount * rate * 10 ^ 8
  bounded : sourceAmount * rate * 10 ^ 8 < 10 ^ 28 - 1 / 2
  rate : rate < 10 ^ 16

theorem toFixed_roundSig_iff (hx : 0 < x) : toFixed 8 (roundSig 20 x) = toFixed 8 x ↔
    (x < 10 ^ 11 → x + 10 ^ (exponent x - 19) / 2 < nextTie 8 x) ∧
      (10 ^ 11 ≤ x → DecimalArithmetic.Fits 20 (toFixed 8 x).value) := by
  have hexp : 11 ≤ exponent x ↔ (10 : ℚ) ^ 11 ≤ x := by exact_mod_cast le_exponent_iff hx
  have hplace : exponent x - (20 : ℕ) + 1 = exponent x - 19 := by push_cast; ring
  by_cases hfine : x < 10 ^ 11
  · have hlt : exponent x - (20 : ℕ) + 1 < -((8 : ℕ) : ℤ) := by
      have hnot := mt hexp.mp hfine.not_ge
      omega
    rw [toFixed_roundSig_of_fine hx hlt, hplace]
    exact ⟨fun h => ⟨fun _ => h, fun hge => absurd hge hfine.not_ge⟩, fun h => h.1 hfine⟩
  · have hge := not_lt.mp hfine
    have hle : -((8 : ℕ) : ℤ) ≤ exponent x - (20 : ℕ) + 1 := by
      have hexp' := hexp.mpr hge
      omega
    rw [toFixed_roundSig_of_coarse (by norm_num) hx hle]
    exact ⟨fun h => ⟨fun hlt => absurd hlt hfine, fun _ => h⟩, fun h => h.2 hge⟩

theorem ofRat?_toFixed {m : Money} : Numeric.ofRat? (toFixed 8 x).value = some m ↔
    (toFixed 8 x).units = m.units := by
  have hunits : (toFixed 8 x).value * 10 ^ 8 = ((toFixed 8 x).units : ℚ) := by
    rw [Text.value, toFixed, div_mul_cancel₀ _ (by norm_num)]
  constructor
  · intro h
    have hvalue := Numeric.value_of_ofRat? h hunits
    have hcast : ((toFixed 8 x).units : ℚ) = m.units := by rw [← hunits, ← hvalue, m.value_mul_pow]
    exact_mod_cast hcast
  · intro h
    have hvalue : (toFixed 8 x).value = m.value := by
      rw [Text.value, h]
      rfl
    rw [hvalue, Numeric.ofRat?_value]

/-- A column holds a number that is not negative when the number stays below its bound. -/
theorem exists_ofRat?_iff {precision scale : ℕ} (hx : 0 ≤ x) :
    (∃ m : Numeric precision scale, Numeric.ofRat? x = some m) ↔
      roundHalfUp (x * 10 ^ scale) < 10 ^ precision := by
  have hnonneg : 0 ≤ roundHalfUp (x * 10 ^ scale) := roundHalfUp_nonneg (by positivity)
  have habs : |roundHalfUp (x * 10 ^ scale)| = roundHalfUp (x * 10 ^ scale) := abs_of_nonneg hnonneg
  constructor
  · rintro ⟨m, hm⟩
    rw [Numeric.ofRat?] at hm
    split at hm
    · next hlt => rwa [habs] at hlt
    · cases hm
  · intro hlt
    rw [← habs] at hlt
    exact ⟨_, dif_pos hlt⟩

theorem exists_rate_iff (hrate : 0 < rate.value) (hplaces : rate.places ≤ 12) :
    (∃ stored : Rate, Numeric.ofRat? rate.value = some stored) ↔ rate.value < 10 ^ 16 := by
  have hgrid := value_mul_pow_of_places hplaces
  rw [exists_ofRat?_iff hrate.le, roundHalfUp_of_int hgrid]
  have hcast : (rate.units * 10 ^ (12 - rate.places) : ℤ) < 10 ^ 28 ↔
      rate.value * 10 ^ 12 < (10 : ℚ) ^ 28 := by
    rw [hgrid]
    exact_mod_cast Iff.rfl
  rw [hcast]
  constructor
  · intro h
    norm_num at h ⊢
    linarith
  · intro h
    norm_num at h ⊢
    linarith

/-- The conversion is exact when what the columns get of it is the product, rounded once. -/
theorem convertsOnce_iff {sourceAmount : ℚ} (hamount : 0 < sourceAmount) (hrate : 0 < rate.value)
    (hplaces : rate.places ≤ 12) : ConvertsOnce sourceAmount rate.value ↔
      ∃ (target : Money) (stored : Rate), Numeric.ofRat? (convert sourceAmount rate.value) = some target ∧
        Numeric.ofRat? rate.value = some stored ∧ 0 < target.value ∧
        target.value = (toFixed 8 (sourceAmount * rate.value)).value := by
  have hx : 0 < sourceAmount * rate.value := mul_pos hamount hrate
  have hscaled : 0 ≤ sourceAmount * rate.value * 10 ^ 8 := by positivity
  obtain ⟨hlow, hhigh⟩ := roundHalfUp_bounds hscaled
  constructor
  · intro h
    have hround := (toFixed_roundSig_iff hx).mpr ⟨h.fine, h.coarse⟩
    have hpos := (roundHalfUp_pos_iff hscaled).mpr h.positive
    have hlt : roundHalfUp (sourceAmount * rate.value * 10 ^ 8) < 10 ^ 28 := by
      have hcast : (roundHalfUp (sourceAmount * rate.value * 10 ^ 8) : ℚ) < 10 ^ 28 :=
        (sub_lt_sub_iff_right _).mp (hlow.trans_lt h.bounded)
      exact_mod_cast hcast
    obtain ⟨stored, hstored⟩ := (exists_rate_iff hrate hplaces).mpr h.rate
    let target : Money := ⟨_, (abs_of_pos hpos).trans_lt hlt⟩
    refine ⟨target, stored, ?_, hstored, ?_, rfl⟩
    · rw [convert, hround]
      exact ofRat?_toFixed.mpr rfl
    · exact div_pos (by exact_mod_cast hpos) (by positivity)
  · rintro ⟨target, stored, htarget, hstored, hpos, hexact⟩
    have hunits : target.units = roundHalfUp (sourceAmount * rate.value * 10 ^ 8) := by
      rw [Numeric.value, toFixed, Text.value] at hexact
      have hcast := (div_left_inj' (by norm_num)).mp hexact
      exact_mod_cast hcast
    have hround : toFixed 8 (roundSig 20 (sourceAmount * rate.value)) =
        toFixed 8 (sourceAmount * rate.value) := by
      have hfirst := ofRat?_toFixed.mp htarget
      exact toFixed_eq_iff.mpr (hfirst.trans hunits)
    obtain ⟨hfine, hcoarse⟩ := (toFixed_roundSig_iff hx).mp hround
    refine ⟨hfine, hcoarse, (roundHalfUp_pos_iff hscaled).mp ?_, ?_,
      (exists_rate_iff hrate hplaces).mp ⟨stored, hstored⟩⟩
    · rw [← hunits]
      rw [Numeric.value, div_pos_iff_of_pos_right (by positivity), Int.cast_pos] at hpos
      exact hpos
    · have hle : target.units + 1 ≤ 10 ^ 28 := lt_of_abs_lt target.bound
      have hcast : (target.units : ℚ) + 1 ≤ 10 ^ 28 := by exact_mod_cast hle
      rw [hunits] at hcast
      calc sourceAmount * rate.value * 10 ^ 8
          < roundHalfUp (sourceAmount * rate.value * 10 ^ 8) + 1 / 2 := hhigh
        _ = roundHalfUp (sourceAmount * rate.value * 10 ^ 8) + 1 - 1 / 2 := by ring
        _ ≤ 10 ^ 28 - 1 / 2 := sub_le_sub_right hcast _

/-! ### The outcome of a creation -/

/-- What a creation should end with: a stored quote for the exact product, rounded once and positive,
or the refusal of the request. -/
def CreatesExactly (product : ℚ) (id : Uuid) (result : Quotes × Next) : Prop :=
  (∃ q ∈ result.1.rows, q.id = id ∧ q.targetAmount.value = (toFixed 8 product).value ∧
    0 < q.targetAmount.value ∧ ∃ now, result.2 = .answer (.quote (toResponse q now))) ∨
  ∃ error, result.2 = .answer (.error error) ∧ 400 ≤ error.status ∧ error.status < 500

theorem not_createsExactly_of_failure {result : Quotes × Next}
    (h : result.2 = .answer (.error internalServerError)) : ¬ CreatesExactly x id result := by
  rintro (⟨_, _, _, _, _, _, hquote⟩ | ⟨error, herror, _, hlt⟩)
  · cases h.symm.trans hquote
  · cases h.symm.trans herror
    exact absurd hlt (by decide)

/-- The insert of a quote under a new id, where the columns hold its amounts. -/
theorem insert_newQuote {c : Choice} {source target : Money} {stored : Rate}
    (hfresh : ∀ q ∈ quotes.rows, q.id ≠ c.id)
    (hcheck : (newQuote clientId command source target stored c now).check = true) :
    ∃ quotes' : Quotes, quotes.insertMany [newQuote clientId command source target stored c now] =
      .ok quotes' ∧ quotes'.rows = quotes.rows ++ [newQuote clientId command source target stored c now] := by
  have hindexed : quotesIndexed
      (quotes.rows ++ [newQuote clientId command source target stored c now]) = true := by
    simp only [quotesIndexed, Bool.and_eq_true]
    refine ⟨uniqueBy_append_new (quote_ids quotes) hfresh, ?_⟩
    exact uniqueWhere_append_new (quote_transfers quotes) (by simp [newQuote])
  obtain ⟨quotes', h⟩ := Table.insertMany_of_indexed (T := quotes) (by
    intro q hq
    rw [List.mem_singleton.mp hq]
    exact hcheck) hindexed
  exact ⟨quotes', h, Table.insertMany_ok h⟩

/-- A new quote passes its checks when its amount is positive. -/
theorem newQuote_check {c : Choice} {source target : Money} {stored : Rate}
    (hcurrency : command.sourceCurrency ≠ command.targetCurrency) (hsource : 0 < source.value)
    (hstored : 0 < stored.value) :
    (newQuote clientId command source target stored c now).check = true ↔ 0 < target.value := by
  constructor
  · intro h
    simp only [FxQuote.check, Bool.and_eq_true] at h
    exact of_decide_eq_true h.1.1.1.2
  · intro h
    have htarget : 0 < (newQuote clientId command source target stored c now).targetAmount.value := h
    simp only [FxQuote.check, htarget, Bool.and_eq_true, decide_true]
    simp [newQuote, hcurrency, hsource, hstored]

/-- `create` keeps to the rule when the currencies are equal, which it refuses, or the conversion is
exact. -/
theorem createsExactly_iff (hrates : rates command.sourceCurrency command.targetCurrency = some rate)
    (hrate : 0 < rate.value) (hplaces : rate.places ≤ 12) (hamount : 0 < command.sourceAmount.val.value)
    (hfresh : ∀ q ∈ quotes.rows, q.id ≠ id) :
    CreatesExactly (command.sourceAmount.val.value * rate.value) id
        (create (freshRate rates false providerReference) id now quotes clientId command) ↔
      command.sourceCurrency = command.targetCurrency ∨
        ConvertsOnce command.sourceAmount.val.value rate.value := by
  by_cases hcurrency : command.sourceCurrency = command.targetCurrency
  · rw [create, if_pos hcurrency]
    exact ⟨fun _ => .inl hcurrency, fun _ => .inr ⟨_, rfl, by decide, by decide⟩⟩
  rw [create, if_neg hcurrency, or_iff_right hcurrency, convertsOnce_iff hamount hrate hplaces]
  have hprovider : freshRate rates false providerReference command.sourceCurrency
      command.targetCurrency = .ok ⟨rate, providerReference⟩ := by simp [freshRate, hrates]
  obtain ⟨source, hsource, hsourcevalue⟩ := exists_money command.sourceAmount.property
  rw [hprovider]
  dsimp only
  rw [runInsert, hsource]
  dsimp only
  cases htarget : (Numeric.ofRat? (convert command.sourceAmount.val.value rate.value) : Option Money) with
  | none => simpa using not_createsExactly_of_failure rfl
  | some target =>
    cases hstored : (Numeric.ofRat? rate.value : Option Rate) with
    | none => simpa using not_createsExactly_of_failure rfl
    | some stored =>
      have hstoredpos : 0 < stored.value := by
        rw [Numeric.value_of_ofRat? hstored (value_mul_pow_of_places hplaces)]
        exact hrate
      let c : Choice := { id := id, fresh := ⟨rate, providerReference⟩ }
      have hcheck : (newQuote clientId command source target stored c now).check = true ↔ 0 < target.value :=
        newQuote_check hcurrency (hsourcevalue ▸ hamount) hstoredpos
      dsimp only
      by_cases hpos : 0 < target.value
      · obtain ⟨quotes', hinsert, hrows⟩ := @insert_newQuote quotes now clientId command c source target
          stored hfresh (hcheck.mpr hpos)
        rw [hinsert]
        constructor
        · rintro (⟨q, hq, hid, hexact, -⟩ | ⟨error, h, -⟩)
          · rw [hrows, List.mem_append, List.mem_singleton] at hq
            rcases hq with hq | rfl
            · exact absurd hid (hfresh q hq)
            · exact ⟨target, stored, rfl, rfl, hpos, hexact⟩
          · cases h
        · rintro ⟨target', stored', ht, -, -, hexact⟩
          obtain rfl := Option.some.inj ht
          refine .inl ⟨_, ?_, rfl, hexact, hpos, now, rfl⟩
          rw [hrows]
          exact List.mem_append_right _ List.mem_cons_self
      · have hinsert : quotes.insertMany [newQuote clientId command source target stored c now] =
            .error .rejected := by
          rw [Table.insertMany, dif_neg]
          intro h
          exact hpos (hcheck.mp (h _ List.mem_cons_self))
        rw [hinsert]
        refine ⟨fun h => absurd h (not_createsExactly_of_failure rfl), ?_⟩
        rintro ⟨target', stored', ht, -, hpos', -⟩
        obtain rfl := Option.some.inj ht
        exact absurd hpos' hpos

def answersQuote : Next → Bool
  | .answer (.quote _) => true
  | _ => false

def noQuotes : Quotes := (State.initial : State Unit).quotes

/-- The creation of a quote at the supported rates, in an empty table. -/
def createFirst (sourceCurrency targetCurrency : Currency) (sourceAmount : MoneyText) : Quotes × Next :=
  create (freshRate supportedRate false "local") 1 0 noQuotes "ann"
    ⟨sourceCurrency, targetCurrency, sourceAmount⟩

/-- The theorem at 100 dollars in euros. -/
theorem createsExactly_hundredDollars :
    CreatesExactly ((⟨1000, 1⟩ : Text).value * (⟨920000000000, 12⟩ : Text).value) 1
        (createFirst dollar euro ⟨⟨1000, 1⟩, by decide⟩) ↔
      dollar = euro ∨ ConvertsOnce (⟨1000, 1⟩ : Text).value (⟨920000000000, 12⟩ : Text).value :=
  @createsExactly_iff noQuotes 1 0 "ann" ⟨dollar, euro, ⟨⟨1000, 1⟩, by decide⟩⟩ supportedRate
    ⟨920000000000, 12⟩ "local" (by decide) (by norm_num [Text.value]) (by decide)
    (by norm_num [Text.value]) (by simp [noQuotes, State.initial])

/-- The largest whole amount of a request. -/
def largestAmount : MoneyText := ⟨⟨999999999999999999990, 1⟩, by decide⟩

/-- A hundred-millionth of a rupee converts to nothing, the largest amount of dollars to more rupees
than a column holds, and in euros it loses its cents. -/
theorem create_inexact :
    ¬ CreatesExactly ((⟨1, 8⟩ : Text).value * (⟨3590664273, 12⟩ : Text).value) 1
        (createFirst rupee dollar ⟨⟨1, 8⟩, by decide⟩) ∧
      ¬ CreatesExactly (largestAmount.val.value * (⟨278500000000000, 12⟩ : Text).value) 1
        (createFirst dollar rupee largestAmount) ∧
      ¬ CreatesExactly (largestAmount.val.value * (⟨920000000000, 12⟩ : Text).value) 1
        (createFirst dollar euro largestAmount) := by
  refine ⟨not_createsExactly_of_failure (by decide +kernel),
    not_createsExactly_of_failure (by decide +kernel), ?_⟩
  have hrows : (createFirst dollar euro largestAmount).1.rows.map (fun q => q.targetAmount.units) =
      [9199999999999999999900000000] := by decide +kernel
  have hexact : roundHalfUp (largestAmount.val.value * (⟨920000000000, 12⟩ : Text).value * 10 ^ 8) =
      9199999999999999999908000000 := by decide +kernel
  rintro (⟨q, hq, -, hvalue, -⟩ | ⟨error, herror, -⟩)
  · have hunits : q.targetAmount.units ∈ ([9199999999999999999900000000] : List ℤ) :=
      hrows ▸ List.mem_map_of_mem hq
    rw [toFixed, hexact, Numeric.value, Text.value, List.mem_singleton.mp hunits] at hvalue
    norm_num at hvalue
  · have hanswer : answersQuote (createFirst dollar euro largestAmount).2 = true := by decide +kernel
    rw [herror] at hanswer
    cases hanswer

end NovaPay.Fx
