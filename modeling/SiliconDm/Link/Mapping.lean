import SiliconDm.Base.Fallible
import SiliconDm.Server.Accounts

/-!
# The operator's mapping file

`dm-migrate link-identities` reads lines `iam_principal_id,accounts_uuid`: an IAM public id
or an IAM principal UUID, and the Silicon Accounts uuid it becomes. Source:
`src/infrastructure/postgres/link_identities.rs:43–53,106–162`, `src/domain/actor.rs:75–81`.
-/

namespace SiliconDm.Link

open Base Server List

/-- What is used of the `uuid` crate: `Uuid::parse_str`, which reads several spellings of one
UUID, and the spelling `Display` writes. -/
structure UuidText where
  parseStr : String → Option Nat
  display : Nat → String

/-- Why a run was refused: an operator's mistake with its text, a constraint of the database,
or a failure inside the program. `unsettled` is not an error of the source: the rounds of a
loop that the model was given did not suffice. -/
inductive LinkError where
  | validation (message : String)
  | constraint (name : String)
  | internal
  | unsettled
  deriving DecidableEq, Repr

/-! ## Text -/

/-- `char::is_whitespace`: the Unicode property `White_Space`. -/
def isWhitespace (c : Char) : Bool :=
  (9 ≤ c.toNat && c.toNat ≤ 13) || (0x2000 ≤ c.toNat && c.toNat ≤ 0x200A) ||
    [0x20, 0x85, 0xA0, 0x1680, 0x2028, 0x2029, 0x202F, 0x205F, 0x3000].contains c.toNat

/-- `str::trim`. -/
def trim (text : List Char) : List Char :=
  ((text.dropWhile isWhitespace).reverse.dropWhile isWhitespace).reverse

/-- A line that ended in a newline, without the carriage return before it. -/
def stripCarriageReturn (line : List Char) : List Char :=
  if line.getLast? = some '\r' then line.dropLast else line

/-- `str::lines`: what follows the last newline is a line unless it is empty. -/
def lines (text : List Char) : List (List Char) :=
  let segments := text.splitOn '\n'
  segments.dropLast.map stripCarriageReturn ++ (segments.getLast?.filter (· ≠ [])).toList

def isLowerHex (c : Char) : Bool :=
  c.isDigit || ('a' ≤ c && c ≤ 'f')

/-- The spelling `Uuid::to_string` writes, and no other. -/
def isCanonicalUuid (value : List Char) : Bool :=
  value.length = 36 &&
    value.zipIdx.all fun c => if c.2 ∈ [8, 13, 18, 23] then c.1 = '-' else isLowerHex c.1

/-- `is_account_uuid`, and the checks `accounts_uuid_format` and `identity_links_uuid_format`.
`src/domain/actor.rs:75–81`, `migrations/0041_accounts_uuid128.sql:2–7`. -/
def isAccountUuid (value : String) : Bool :=
  (3 ≤ value.toList.length && value.toList.length ≤ 64 &&
      value.toList.all Char.isAlphanum) || isCanonicalUuid value.toList

/-! ## Rows -/

/-- One row of the file; the public id is in lowercase. -/
structure MappingRow where
  line : Nat
  iamKey : String
  accountsUuid : String
  deriving DecidableEq, Repr

/-- Two columns, checked and added to the rows read so far, whose keys are `seen` and whose
uuids are `targets`. `link_identities.rs:130–158`. -/
def acceptRow (uuids : UuidText) (line : Nat) (key uuid : List Char) (rows : List MappingRow) :
    Except LinkError (List MappingRow) :=
  let written := String.ofList key
  let iamKey := String.ofList (key.map Char.toLower)
  let accountsUuid := String.ofList uuid
  if !validPublicId iamKey && (uuids.parseStr iamKey).isNone then
    .error (.validation s!"line {line}: `{written}` is neither an IAM public id (c:handle, si:handle) nor an IAM principal UUID")
  else if !isAccountUuid accountsUuid then
    .error (.validation s!"line {line}: `{accountsUuid}` is not a Silicon Accounts uuid (letters and digits, case-sensitive, such as zQo)")
  else if rows.any (·.iamKey = iamKey) then
    .error (.validation s!"line {line}: `{iamKey}` is mapped twice")
  else
    match rows.find? (·.accountsUuid = accountsUuid) with
    | some r =>
      let other := r.iamKey
      .error (.validation s!"line {line}: `{accountsUuid}` is already the target of `{other}`; two IAM identities cannot become one account")
    | none => .ok (rows ++ [{ line, iamKey, accountsUuid }])

/-- One line: blank lines, comments and a header in the first line are skipped.
`link_identities.rs:116–129`. -/
def parseLine (uuids : UuidText) (rows : List MappingRow) (raw : List Char × Nat) :
    Except LinkError (List MappingRow) :=
  let line := raw.2 + 1
  let trimmed := trim raw.1
  if trimmed = [] || trimmed.head? = some '#' then .ok rows
  else
    match (trimmed.splitOn ',').map trim with
    | [key, uuid] =>
      if raw.2 = 0 && key = "iam_principal_id".toList && uuid = "accounts_uuid".toList then
        .ok rows
      else acceptRow uuids line key uuid rows
    | fields =>
      let got := fields.length
      .error (.validation s!"line {line}: expected two columns `iam_principal_id,accounts_uuid`, got {got}")

/-- `parse_mapping`. `link_identities.rs:112–162`. -/
def parseMapping (uuids : UuidText) (text : String) : Except LinkError (List MappingRow) :=
  (lines text.toList).zipIdx.foldlM (parseLine uuids) []

/-! ## What the parser accepts -/

def MappingRow.Valid (uuids : UuidText) (r : MappingRow) : Prop :=
  (validPublicId r.iamKey = true ∨ (uuids.parseStr r.iamKey).isSome) ∧
    isAccountUuid r.accountsUuid = true

/-- An accepted file: no key and no target twice. -/
structure Accepted (uuids : UuidText) (rows : List MappingRow) : Prop where
  valid : ∀ r ∈ rows, r.Valid uuids
  keys : (rows.map (·.iamKey)).Nodup
  targets : (rows.map (·.accountsUuid)).Nodup

variable {uuids : UuidText}

variable {rows rows' : List MappingRow}

theorem Accepted.acceptRow {line : Nat} {key uuid : List Char} (h : Accepted uuids rows)
    (ha : acceptRow uuids line key uuid rows = .ok rows') :
    Accepted uuids rows' := by
  unfold Link.acceptRow at ha
  simp only [] at ha
  split at ha
  case isTrue => cases ha
  case isFalse hkey =>
  split at ha
  case isTrue => cases ha
  case isFalse huuid =>
  split at ha
  case isTrue => cases ha
  case isFalse hseen =>
  split at ha
  case h_1 => cases ha
  case h_2 hfind =>
    cases ha
    constructor
    · intro r hr
      cases mem_append.mp hr with
      | inl hr => exact h.valid r hr
      | inr hr =>
        obtain rfl := mem_singleton.mp hr
        refine ⟨?_, by simpa using huuid⟩
        by_contra hc
        simp only [not_or, Option.not_isSome_iff_eq_none] at hc
        exact hkey (by simp [hc.1, hc.2])
    · rw [map_append, nodup_append]
      refine ⟨h.keys, by simp, ?_⟩
      intro k hk k' hk' he
      obtain ⟨r, hr, rfl⟩ := List.mem_map.mp hk
      obtain rfl := mem_singleton.mp hk'
      exact hseen (List.any_eq_true.mpr ⟨r, hr, by simpa using he⟩)
    · rw [map_append, nodup_append]
      refine ⟨h.targets, by simp, ?_⟩
      intro k hk k' hk' he
      obtain ⟨r, hr, rfl⟩ := List.mem_map.mp hk
      obtain rfl := mem_singleton.mp hk'
      exact absurd (by simpa using he) (find?_eq_none.mp hfind r hr)

theorem Accepted.parseLine {raw : List Char × Nat} (h : Accepted uuids rows)
    (hp : parseLine uuids rows raw = .ok rows') :
    Accepted uuids rows' := by
  unfold Link.parseLine at hp
  simp only [] at hp
  split at hp
  case isTrue => exact Except.ok.inj hp ▸ h
  case isFalse =>
  split at hp
  case h_1 =>
    split at hp
    case isTrue => exact Except.ok.inj hp ▸ h
    case isFalse => exact h.acceptRow hp
  case h_2 => cases hp

/-- Every accepted file is well formed. -/
theorem accepted_of_parseMapping {text : String} (h : parseMapping uuids text = .ok rows) :
    Accepted uuids rows :=
  foldlM_invariant (I := fun _ rows => Accepted uuids rows) h ⟨by simp, by simp, by simp⟩
    fun _ _ _ _ _ hs hp => hs.parseLine hp

/-! ## Public ids and uuids are told apart by the colon -/

theorem colon_mem_of_publicIdParts {id : String} (h : (publicIdParts id).isSome) :
    ':' ∈ id.toList := by
  unfold publicIdParts at h
  split at h
  case h_1 he => simp [he]
  case h_2 he => simp [he]
  case h_3 => cases h

theorem colon_notMem_of_isAccountUuid {value : String} (h : isAccountUuid value = true) :
    ':' ∉ value.toList := by
  intro hc
  rw [isAccountUuid, Bool.or_eq_true] at h
  cases h with
  | inl h =>
    have hall := (Bool.and_eq_true_iff.mp h).2
    exact absurd (List.all_eq_true.mp hall ':' hc) (by decide)
  | inr h =>
    have hall := (Bool.and_eq_true_iff.mp h).2
    obtain ⟨i, hi, hget⟩ := getElem_of_mem hc
    have hm : (':', i) ∈ value.toList.zipIdx := by
      rw [mem_zipIdx_iff_getElem?]
      simp [hi, hget]
    have := List.all_eq_true.mp hall _ hm
    simp only [] at this
    split at this
    · simp at this
    · exact absurd this (by decide)

end SiliconDm.Link
