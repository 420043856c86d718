import Mathlib.Data.Prod.Lex
import NovaPay.History.Cursor
import NovaPay.History.Projection
import NovaPay.Library.Keyset
import NovaPay.Transaction.Execution

/-!
# Pages of a wallet's history

`history`, a page at a time, and what a client reads that follows `nextCursor` to the last page while rows
come and go.
-/

namespace NovaPay.History

open Calendar DecimalArithmetic Keyset Relational Transaction

inductive Direction
  | outgoing
  | incoming
deriving DecidableEq, Repr

/-- `HistoryItemDto` -/
structure HistoryItem where
  transferId : Uuid
  direction : Direction
  amount : Text
  currency : Currency
  status : TransferStatus
  occurredAt : String
deriving DecidableEq, Repr

/-- `HistoryPageDto` -/
structure HistoryPage where
  items : List HistoryItem
  nextCursor : Option String
deriving DecidableEq, Repr

def directionOf (role : TransferRole) : Direction := if role = .sender then .outgoing else .incoming

def toItem (row : TransactionHistory) : HistoryItem where
  transferId := row.transferId
  direction := directionOf row.role
  amount := toFixed 8 row.amount.value
  currency := row.currency
  status := row.status
  occurredAt := String.ofList (toISOString row.occurredAt)

/-- `ORDER BY "occurred_at" DESC, "id" DESC` -/
abbrev RowKey := (ℤ ×ₗ Uuid)ᵒᵈ

def rowKey (row : TransactionHistory) : RowKey := OrderDual.toDual (toLex ((row.occurredAt : ℤ), row.id))

def cursorKey (value : HistoryCursorValue) : RowKey :=
  OrderDual.toDual (toLex (value.occurredAt, uuidOf value.id))

def ofWallet (walletId : Uuid) (table : HistoryTable) : List TransactionHistory :=
  table.rows.filter fun row => decide (row.walletId = walletId)

def readWallet (reply : Reply WalletValidation) : Except HttpError (Option WalletValidation) :=
  match reply with
  | .ok body => .ok body
  | .error .unavailable => .error accountUnavailable
  | .error (.http error) =>
    if error.status = 404 then .error ⟨404, "WALLET_NOT_FOUND", "Wallet not found."⟩
    else .error accountUnavailable

/-- The page made of the rows that the query returns. -/
def toPage (key : CursorKey) (walletId : UuidText) (limit : ℕ) (rows : List TransactionHistory) :
    HistoryPage :=
  let page := rows.take limit
  { items := page.map toItem
    nextCursor :=
      match page.getLast? with
      | some last =>
        if limit < rows.length then
          some (encodeHistoryCursor key (spelled walletId) ⟨last.occurredAt, uuidText last.id⟩)
        else none
      | none => none }

/-- The place that the request's cursor names. An empty cursor is none. -/
def readAfter (key : CursorKey) (walletId : UuidText) (cursor : Option String) :
    Except HttpError (Option RowKey) :=
  match cursor.filter (· ≠ "") with
  | some cursor => (decodeHistoryCursor key (spelled walletId) cursor).map fun after => some (cursorKey after)
  | none => .ok none

def history (key : CursorKey) (clientId : Principal) (walletId : UuidText) (limit : ℤ)
    (cursor : Option String) (reply : Reply WalletValidation) (table : HistoryTable) :
    Except HttpError HistoryPage := do
  if limit < 1 ∨ 100 < limit then
    throw ⟨400, "INVALID_PAGE_LIMIT", "History limit must be between 1 and 100."⟩
  let wallet ← readWallet reply
  if wallet.map WalletValidation.ownerExternalRef ≠ some clientId then
    throw ⟨403, "WALLET_ACCESS_DENIED", "The wallet is not owned by this principal."⟩
  let after ← readAfter key walletId cursor
  let pageSize := limit.toNat + 1
  let rows := page rowKey after pageSize (ofWallet walletId.value table)
  return toPage key walletId limit.toNat rows

/-- The pages from the `k`-th request on, each by the cursor of the one before it and from the table as it
is then; at most `n` of them. -/
def follow (key : CursorKey) (clientId : Principal) (walletId : UuidText) (limit : ℤ)
    (wallets : ℕ → WalletValidation) (tables : ℕ → HistoryTable) :
    ℕ → ℕ → Option String → Except HttpError (List HistoryPage)
  | 0, _, _ => .ok []
  | n + 1, k, cursor => do
    let page ← history key clientId walletId limit cursor (.ok (some (wallets k))) (tables k)
    match page.nextCursor with
    | none => return [page]
    | some next =>
      let pages ← follow key clientId walletId limit wallets tables n (k + 1) (some next)
      return page :: pages

/-- The ids are drawn and the times are those of a `Date`. -/
def Written (table : HistoryTable) : Prop :=
  ∀ row ∈ table.rows, Drawn row.id ∧ row.occurredAt ≤ 8640000000000000

/-- The row is in the table, apart from what an update changes. -/
def Present (table : HistoryTable) (row : TransactionHistory) : Prop :=
  ∃ row' ∈ table.rows, row'.id = row.id ∧ row'.walletId = row.walletId ∧ row'.role = row.role ∧
    row'.transferId = row.transferId ∧ row'.occurredAt = row.occurredAt

/-- A wallet has one item for each transfer and direction. -/
def isItemOf (row : TransactionHistory) (item : HistoryItem) : Bool :=
  decide (item.transferId = row.transferId) && decide (item.direction = directionOf row.role)

/-! ### One page -/

variable {key : CursorKey} {clientId : Principal} {walletId : UuidText} {limit : ℤ} {cursor : Option String}
  {wallet : WalletValidation} {table H : HistoryTable} {row h : TransactionHistory} {k n : ℕ}

theorem rowKey_lt_iff {a b : TransactionHistory} : rowKey a < rowKey b ↔
    b.occurredAt < a.occurredAt ∨ b.occurredAt = a.occurredAt ∧ b.id < a.id := by
  rw [rowKey, rowKey, OrderDual.toDual_lt_toDual, Prod.Lex.toLex_lt_toLex, Nat.cast_lt, Nat.cast_inj]

theorem rowKey_inj {a b : TransactionHistory} :
    rowKey a = rowKey b ↔ a.occurredAt = b.occurredAt ∧ a.id = b.id := by
  rw [rowKey, rowKey, OrderDual.toDual_inj, toLex_inj, Prod.mk.injEq, Nat.cast_inj]

theorem mem_ofWallet {i : Uuid} : row ∈ ofWallet i table ↔ row ∈ table.rows ∧ row.walletId = i := by
  simp [ofWallet]

theorem rowKeys_nodup (i : Uuid) (table : HistoryTable) : ((ofWallet i table).map rowKey).Nodup := by
  have hids : ((ofWallet i table).map TransactionHistory.id).Nodup :=
    (uniqueBy_iff.mp (history_ids table)).sublist (List.Sublist.map _ List.filter_sublist)
  refine List.Nodup.of_map (fun x : RowKey => (ofLex (OrderDual.ofDual x)).2) ?_
  rwa [List.map_map]

theorem directionOf_inj {a b : TransferRole} (h : directionOf a = directionOf b) : a = b := by
  cases a <;> cases b <;> first | rfl | cases h

/-- A cursor names the place in the order from which the next page goes on. -/
def Names (key : CursorKey) (walletId : UuidText) (cursor : Option String) (after : Option RowKey) : Prop :=
  cursor = none ∧ after = none ∨ ∃ row : TransactionHistory, (Drawn row.id ∧ row.occurredAt ≤ 8640000000000000) ∧
    cursor = some (encodeHistoryCursor key (spelled walletId) ⟨row.occurredAt, uuidText row.id⟩) ∧
    after = some (rowKey row)

theorem readAfter_of_names {after : Option RowKey} (hwallet : Drawn walletId.value)
    (hnames : Names key walletId cursor after) : readAfter key walletId cursor = .ok after := by
  obtain ⟨rfl, rfl⟩ | ⟨row, ⟨hid, ht⟩, rfl, rfl⟩ := hnames
  · rfl
  · have hdecode : decodeHistoryCursor key (spelled walletId) (encodeHistoryCursor key (spelled walletId)
        ⟨row.occurredAt, uuidText row.id⟩) = .ok ⟨row.occurredAt, uuidText row.id⟩ :=
      decodeHistoryCursor_encodeHistoryCursor (isUuid_spelled hwallet) (isUuid_uuidText hid) (by simpa using ht)
    rw [readAfter, Option.filter_some_pos (by simpa using encodeHistoryCursor_ne_empty)]
    change (decodeHistoryCursor key (spelled walletId) _).map _ = _
    rw [hdecode]
    change Except.ok (some (cursorKey _)) = _
    rw [cursorKey, uuidOf_uuidText hid.1, rowKey]

theorem history_of_names (table : HistoryTable) {after : Option RowKey} (hlimit : 1 ≤ limit ∧ limit ≤ 100)
    (hwallet : Drawn walletId.value) (howner : wallet.ownerExternalRef = clientId)
    (hnames : Names key walletId cursor after) :
    history key clientId walletId limit cursor (.ok (some wallet)) table =
      .ok (toPage key walletId limit.toNat (page rowKey after (limit.toNat + 1) (ofWallet walletId.value table))) := by
  have hbounds : ¬(limit < 1 ∨ 100 < limit) := by omega
  simp [history, hbounds, readWallet, howner, readAfter_of_names hwallet hnames, bind, Except.bind, pure, Except.pure]

/-! ### All pages -/

theorem toPage_last {rows : List TransactionHistory} (h : rows.length ≤ n) :
    toPage key walletId n rows = ⟨(rows.take n).map toItem, none⟩ := by
  simp only [toPage, if_neg (Nat.not_lt.mpr h)]
  cases (rows.take n).getLast? <;> rfl

theorem toPage_more {rows xs : List TransactionHistory} {a : TransactionHistory} (h : n < rows.length)
    (hpage : rows.take n = xs ++ [a]) : toPage key walletId n rows = ⟨(rows.take n).map toItem,
      some (encodeHistoryCursor key (spelled walletId) ⟨a.occurredAt, uuidText a.id⟩)⟩ := by
  simp only [toPage, if_pos h, hpage, List.getLast?_concat]

theorem take_page {after : Option RowKey} {rows : List TransactionHistory} :
    (page rowKey after (n + 1) rows).take n = page rowKey after n rows := by
  rw [page, page, List.take_take, Nat.min_eq_left (Nat.le_succ n)]

/-- A client that follows the cursors reads the pages that follow one another. -/
theorem follow_of_follows {wallets : ℕ → WalletValidation} {tables : ℕ → HistoryTable} {after : Option RowKey}
    {ps : List (List TransactionHistory)} (hlimit : 1 ≤ limit ∧ limit ≤ 100) (hwallet : Drawn walletId.value)
    (howner : ∀ k, (wallets k).ownerExternalRef = clientId) (hwritten : ∀ k, Written (tables k))
    (h : Follows rowKey limit.toNat (fun k => ofWallet walletId.value (tables k)) k after ps)
    (hnames : Names key walletId cursor after) :
    ∃ pages, (∀ n, ps.length ≤ n → follow key clientId walletId limit wallets tables n k cursor = .ok pages) ∧
      pages.map HistoryPage.items = ps.map (List.map toItem) ∧
      ∃ page ∈ pages.getLast?, page.nextCursor = none := by
  induction h generalizing cursor with
  | @last k after hlast =>
    have hpage := history_of_names (tables k) hlimit hwallet (howner k) hnames
    rw [toPage_last hlast, take_page] at hpage
    refine ⟨[⟨(page rowKey after limit.toNat (ofWallet walletId.value (tables k))).map toItem, none⟩],
      fun n hn => ?_, rfl, _, rfl, rfl⟩
    obtain ⟨m, rfl⟩ := Nat.exists_eq_succ_of_ne_zero (Nat.ne_of_gt hn)
    rw [follow, hpage]
    rfl
  | @more k after xs a ps hmore hlast hnext ih =>
    have hpage := history_of_names (tables k) hlimit hwallet (howner k) hnames
    rw [toPage_more hmore (take_page.trans hlast), take_page] at hpage
    have ha : a ∈ page rowKey after limit.toNat (ofWallet walletId.value (tables k)) := by simp [hlast]
    have hrow := hwritten k a (mem_ofWallet.mp (mem_of_mem_page ha).1).1
    obtain ⟨pages, hfollow, hitems, last, hgetLast, hend⟩ := ih (.inr ⟨a, hrow, rfl, rfl⟩)
    refine ⟨⟨(page rowKey after limit.toNat (ofWallet walletId.value (tables k))).map toItem,
      some (encodeHistoryCursor key (spelled walletId) ⟨a.occurredAt, uuidText a.id⟩)⟩ :: pages,
      fun n hn => ?_, ?_, last, ?_, hend⟩
    · obtain ⟨m, rfl⟩ := Nat.exists_eq_succ_of_ne_zero (by simp at hn; omega : n ≠ 0)
      have hrest := hfollow m (by simpa using hn)
      rw [follow, hpage]
      change (follow key clientId walletId limit wallets tables m (k + 1) _).bind _ = _
      rw [hrest]
      rfl
    · rw [List.map_cons, List.map_cons, hitems]
    · rw [List.getLast?_cons, Option.mem_def.mp hgetLast]
      rfl

/-- The keys of rows cannot ascend for ever: the times and the ids are bounded below. -/
theorem wellFoundedOn_rowKeys (tables : ℕ → List TransactionHistory) :
    {x | ∃ j, ∃ r ∈ tables j, rowKey r = x}.WellFoundedOn (· > ·) := by
  let place : ℕ ×ₗ ℕ → RowKey := fun p => OrderDual.toDual (toLex (((ofLex p).1 : ℤ), (ofLex p).2))
  have hrange : (Set.range place).WellFoundedOn (· > ·) := by
    rw [Set.wellFoundedOn_range]
    refine Subrelation.wf (r := (· < ·)) ?_ wellFounded_lt
    intro p q hpq
    have hlt : toLex (((ofLex p).1 : ℤ), (ofLex p).2) < toLex (((ofLex q).1 : ℤ), (ofLex q).2) := hpq
    rw [Prod.Lex.toLex_lt_toLex, Nat.cast_lt, Nat.cast_inj] at hlt
    exact Prod.Lex.lt_iff.mpr hlt
  refine hrange.subset ?_
  rintro x ⟨j, r, _, rfl⟩
  exact ⟨toLex (r.occurredAt, r.id), rfl⟩

/-- For a row that is in the table, its item and its key pick out the same rows of the wallet. -/
theorem isItemOf_iff (hin : Present table row) (hrow : row.walletId = walletId.value)
    (hh : h ∈ ofWallet walletId.value table) : isItemOf row (toItem h) = true ↔ rowKey h = rowKey row := by
  obtain ⟨row', hmem', hid, hwallet, hrole, htransfer, htime⟩ := hin
  obtain ⟨hmem, hwalletOf⟩ := mem_ofWallet.mp hh
  rw [isItemOf, Bool.and_eq_true, decide_eq_true_eq, decide_eq_true_eq, rowKey_inj]
  constructor
  · rintro ⟨htransferOf, hdirection⟩
    have hroleOf := directionOf_inj hdirection
    have heq : h = row' := eq_of_uniqueBy (history_keys table) hmem hmem' (by
      rw [htransfer, hrole, hwallet, hrow, hwalletOf, hroleOf]
      exact Prod.ext htransferOf rfl)
    rw [heq]
    exact ⟨htime, hid⟩
  · rintro ⟨-, hidOf⟩
    have heq : h = row' := eq_of_uniqueBy (history_ids table) hmem hmem' (hidOf.trans hid.symm)
    rw [heq]
    exact ⟨htransfer, congrArg directionOf hrole⟩

/-- Following the cursors ends. While the table stays as it is, the pages hold the rows of the wallet in
descending order; and while it changes, every row that stays in it is returned exactly once. -/
theorem history_pages (key : CursorKey) (clientId : Principal) (walletId : UuidText) (limit : ℤ)
    (wallets : ℕ → WalletValidation) (tables : ℕ → HistoryTable) (hlimit : 1 ≤ limit ∧ limit ≤ 100)
    (hwallet : Drawn walletId.value) (howner : ∀ k, (wallets k).ownerExternalRef = clientId)
    (hwritten : ∀ k, Written (tables k)) :
    ∃ pages, (∃ m, ∀ n, m ≤ n → follow key clientId walletId limit wallets tables n 0 none = .ok pages) ∧
      (∃ page ∈ pages.getLast?, page.nextCursor = none) ∧
      (∀ page ∈ pages.dropLast, page.items.length = limit) ∧
      (∀ H, (∀ k, tables k = H) → ∃ rows : List TransactionHistory,
        rows.Perm (ofWallet walletId.value H) ∧
        (rows.Pairwise fun a b => b.occurredAt < a.occurredAt ∨ b.occurredAt = a.occurredAt ∧ b.id < a.id) ∧
        pages.flatMap HistoryPage.items = rows.map toItem) ∧
      ∀ row : TransactionHistory, row.walletId = walletId.value → (∀ k < pages.length, Present (tables k) row) →
        (pages.flatMap HistoryPage.items).countP (isItemOf row) = 1 := by
  let rowsAt : ℕ → List TransactionHistory := fun k => ofWallet walletId.value (tables k)
  obtain ⟨ps, hps⟩ : ∃ ps, Follows rowKey limit.toNat rowsAt 0 none ps :=
    exists_follows (by omega) (wellFoundedOn_rowKeys rowsAt) 0
  obtain ⟨pages, hfollow, hitems, hend⟩ := follow_of_follows hlimit hwallet howner hwritten hps (.inl ⟨rfl, rfl⟩)
  have hflat : pages.flatMap HistoryPage.items = ps.flatten.map toItem := by
    rw [List.flatMap_def, hitems, ← List.map_flatten]
  have hlength : pages.length = ps.length := by
    rw [← List.length_map (f := HistoryPage.items), hitems, List.length_map]
  refine ⟨pages, ⟨ps.length, hfollow⟩, hend, fun page hpage => ?_, fun H hH => ?_, fun row hrow hpresent => ?_⟩
  · have hmem : page.items ∈ (ps.map (List.map toItem)).dropLast := by
      rw [← hitems, ← List.map_dropLast]
      exact List.mem_map_of_mem hpage
    rw [← List.map_dropLast] at hmem
    obtain ⟨p, hp, heq⟩ := List.mem_map.mp hmem
    rw [← heq, List.length_map, hps.length_of_mem_dropLast p hp]
    omega
  · refine ⟨rest rowKey none (ofWallet walletId.value H), Keyset.rest_none_perm, ?_, ?_⟩
    · exact (strict_rest (rowKeys_nodup walletId.value H)).imp fun hlt => rowKey_lt_iff.mp hlt
    · have hrows : ∀ k, rowsAt k = ofWallet walletId.value H := fun k => by rw [← hH k]
      rw [hflat, hps.flatten_eq (rowKeys_nodup walletId.value H) hrows]
  · have hin : ∀ j < ps.length, rowKey row ∈ (rowsAt (0 + j)).map rowKey := by
      intro j hj
      rw [Nat.zero_add]
      obtain ⟨row', hmem, hid, hwalletOf, -, -, htime⟩ := hpresent j (hlength ▸ hj)
      exact List.mem_map.mpr ⟨row', mem_ofWallet.mpr ⟨hmem, hwalletOf.trans hrow⟩, rowKey_inj.mpr ⟨htime, hid⟩⟩
    have hone := hps.count_eq_one (x := rowKey row) (fun j => rowKeys_nodup walletId.value (tables j))
      (by simp) hin
    rw [hflat, List.countP_map, ← hone, List.count_eq_countP, List.countP_map]
    refine List.countP_congr fun h hh => ?_
    obtain ⟨⟨j, hj, hmem⟩, -⟩ := hps.mem hh
    rw [Nat.zero_add] at hmem
    rw [Function.comp_apply, Function.comp_apply, isItemOf_iff (hpresent j (hlength ▸ hj)) hrow hmem, beq_iff_eq]

def sampleRow (id transferId : Uuid) : TransactionHistory where
  walletId := 0x20000000000040008000000000000001
  role := .sender
  counterpartyWalletId := 0x20000000000040008000000000000002
  status := .completed
  amount := ⟨100000000, by decide⟩
  currency := (0, 0, 0)
  fxQuoteId := none
  occurredAt := 1788084000000
  id := id
  transferId := transferId

/-- Two rows of one time, which a page of one row parts. -/
def sampleTable : HistoryTable where
  rows := [sampleRow 0x10000000000040008000000000000001 1, sampleRow 0x10000000000040008000000000000002 2]
  checked := by decide +kernel
  indexed := by decide +kernel

theorem history_pages_sampleTable :
    ∃ pages, (∃ m, ∀ n, m ≤ n → follow sampleKey "alice" (.ofUuid 0x20000000000040008000000000000001) 1
        (fun _ => ⟨0x20000000000040008000000000000001, 1, "alice", (0, 0, 0), .active, none⟩)
        (fun _ => sampleTable) n 0 none = .ok pages) ∧
      (pages.flatMap HistoryPage.items).countP
        (isItemOf (sampleRow 0x10000000000040008000000000000002 2)) = 1 := by
  have hdrawn : Drawn (UuidText.ofUuid 0x20000000000040008000000000000001).value := by
    unfold Drawn
    decide +kernel
  have hwritten : Written sampleTable := by
    have hrows : ∀ row ∈ sampleTable.rows, (row.id < 16 ^ 32 ∧ row.id / 16 ^ 19 % 16 = 4 ∧
        row.id / 16 ^ 15 % 16 / 4 = 2) ∧ row.occurredAt ≤ 8640000000000000 := by decide +kernel
    exact hrows
  obtain ⟨pages, hfollow, -, -, -, hdynamic⟩ := history_pages sampleKey "alice"
    (.ofUuid 0x20000000000040008000000000000001) 1
    (fun _ => ⟨0x20000000000040008000000000000001, 1, "alice", (0, 0, 0), .active, none⟩)
    (fun _ => sampleTable) ⟨by decide, by decide⟩ hdrawn (fun _ => rfl) fun _ => hwritten
  refine ⟨pages, hfollow, hdynamic _ rfl fun _ _ => ?_⟩
  exact ⟨sampleRow 0x10000000000040008000000000000002 2, by simp [sampleTable], rfl, rfl, rfl, rfl, rfl⟩

end NovaPay.History
