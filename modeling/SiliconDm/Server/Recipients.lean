import Mathlib
import SiliconDm.Server.Routes

/-!
# Recipients

Four parsers read what a caller calls a recipient: `resolve` of the directory, the test whether a
path names one account, the type of identifiers, and `address_parts`. Here is the grammar on which
they agree, and what they make of its texts: the account that is resolved, the conversation that
is used or started, and the address that is stored.

Sources: `src/application/accounts.rs:254–289`, `src/api/access.rs:134–159,228–233`,
`src/api/handlers.rs:452–524`, `src/domain/actor.rs:74–199`.
-/

namespace SiliconDm.Server.Routes.Recipients

open Base Backend Content Sending List Option
open Link (isAccountUuid isWhitespace trim)
open Selector (splitOnce rsplitOnce splitOnce_eq_some_iff splitOnce_eq_none_iff)
open Ting (validActorId)

/-! ### The grammar -/

/-- An ISI: one word without `:` and `@`. -/
def validIsi (isi : List Char) : Bool :=
  isi ≠ [] && isi.all fun c => !isWhitespace c && !isControl c && c ≠ ':' && c ≠ '@'

/-- The texts that are read as recipients: the key of an account; or, with white space around it,
an id, or an ISI before the id of a Silicon. -/
def readable (text : String) : Bool :=
  isAccountUuid text ||
    match splitOnce '@' (trim text.toList) with
    | none => validActorId (trim text.toList)
    | some (isi, id) => validIsi isi && "si:".toList.isPrefixOf id && validActorId id

/-- The ISI that a text names: what stands before its last `@`. -/
def isiOf (text : String) : Option String :=
  (rsplitOnce '@' (trim text.toList)).map (String.ofList ·.1)

/-- What is stored for an account with an ISI. -/
def storedText (isi : Option String) (key : String) : String :=
  isi.elim key (· ++ "@" ++ key)

/-! ### Characters -/

def nameChar (c : Char) : Bool :=
  c.isAlphanum || c = '-' || c = '_' || c = ':'

/-- A property of the ASCII characters can be tried out. -/
theorem of_ascii {p : Char → Bool} {c : Char} (hc : c.toNat < 128)
    (h : ∀ n < 128, p (Char.ofNat n) = true) : p c = true := by
  have hp := h c.toNat hc
  rwa [Char.ofNat_toNat] at hp

theorem toNat_lt_of_nameChar {c : Char} (h : nameChar c = true) : c.toNat < 128 := by
  simp only [nameChar, Char.isAlphanum, Char.isAlpha, Char.isUpper, Char.isLower, Char.isDigit,
    Bool.or_eq_true, Bool.and_eq_true, decide_eq_true_eq, UInt32.le_iff_toNat_le, ge_iff_le] at h
  change (((((65 ≤ c.toNat ∧ c.toNat ≤ 90) ∨ (97 ≤ c.toNat ∧ c.toNat ≤ 122)) ∨
    (48 ≤ c.toNat ∧ c.toNat ≤ 57)) ∨ c = '-') ∨ c = '_') ∨ c = ':' at h
  rcases h with (((h | h) | rfl) | rfl) | rfl
  · omega
  · omega
  all_goals decide

theorem nameChar_plain {c : Char} (h : nameChar c = true) :
    isWhitespace c = false ∧ isControl c = false ∧ c ≠ '@' := by
  have hall := of_ascii (p := fun c => !nameChar c || (!isWhitespace c && !isControl c && c ≠ '@'))
    (toNat_lt_of_nameChar h) (by decide +kernel)
  simpa [h, and_assoc] using hall

theorem nameChar_of_isAccountUuid {key : String} (h : isAccountUuid key = true) :
    ∀ c ∈ key.toList, nameChar c = true := by
  intro c hc
  simp only [isAccountUuid, Link.isCanonicalUuid, Bool.or_eq_true, Bool.and_eq_true] at h
  rcases h with h | h
  · have := List.all_eq_true.mp h.2 c hc
    simp [nameChar, this]
  · obtain ⟨i, hi, rfl⟩ := getElem_of_mem hc
    have hm : (key.toList[i], i) ∈ key.toList.zipIdx := by
      rw [mem_zipIdx_iff_getElem?]
      simp [hi]
    have hchar := List.all_eq_true.mp h.2 _ hm
    simp only [] at hchar
    split at hchar
    · simp [nameChar, of_decide_eq_true hchar]
    · simp only [Link.isLowerHex, Bool.or_eq_true, Bool.and_eq_true, decide_eq_true_eq,
        Char.le_def, UInt32.le_iff_toNat_le] at hchar
      simp only [nameChar, Char.isAlphanum, Char.isAlpha, Char.isLower, Bool.or_eq_true,
        Bool.and_eq_true, decide_eq_true_eq, UInt32.le_iff_toNat_le, ge_iff_le]
      rcases hchar with hdigit | ⟨hlow, hhigh⟩
      · tauto
      · refine .inl (.inl (.inl (.inl (.inr ⟨hlow, hhigh.trans ?_⟩))))
        decide

/-! ### Ids -/

variable {id isi : List Char} {text key : String}

theorem exists_handle (h : validActorId id = true) : ∃ mark handle,
    id = mark ++ ':' :: handle ∧ (mark = ['c'] ∨ mark = ['s', 'i']) ∧
      (∀ c ∈ handle, nameChar c = true ∧ c.toLower = c ∧ c ≠ ':') ∧
      validPublicId (String.ofList id) = true := by
  obtain ⟨⟨kind, handle⟩, hparts, hp⟩ := (Option.any_eq_true _ _).mp h
  simp only [Bool.and_eq_true, decide_eq_true_eq] at hp
  have hchars : ∀ c ∈ handle, nameChar c = true ∧ c.toLower = c ∧ c ≠ ':' := by
    intro c hc
    have hchar := List.all_eq_true.mp hp.2 c hc
    have hname : nameChar c = true := by
      simp only [Bool.or_eq_true, decide_eq_true_eq] at hchar
      simp only [nameChar, Char.isAlphanum, Char.isAlpha, Bool.or_eq_true, decide_eq_true_eq]
      tauto
    have hall := of_ascii (p := fun c => !(c.isLower || c.isDigit || c = '-' || c = '_') ||
      (c.toLower = c && c ≠ ':')) (toNat_lt_of_nameChar hname) (by decide +kernel)
    simpa [hname, hchar] using hall
  have hvalid : validPublicId (String.ofList id) = true := by
    refine (Option.any_eq_true _ _).mpr ⟨(kind, handle), hparts, ?_⟩
    have hlong := hp.1.2
    simp only [hp.2, Bool.and_true, Bool.and_eq_true, decide_eq_true_eq]
    split at hlong <;> omega
  unfold publicIdParts at hparts
  rw [String.toList_ofList] at hparts
  split at hparts <;> cases hparts
  · exact ⟨['c'], handle, rfl, .inl rfl, hchars, hvalid⟩
  · exact ⟨['s', 'i'], handle, rfl, .inr rfl, hchars, hvalid⟩

theorem nameChar_of_validActorId (h : validActorId id = true) : ∀ c ∈ id, nameChar c = true := by
  obtain ⟨mark, handle, rfl, hmark, hchars, -⟩ := exists_handle h
  intro c hc
  rcases mem_append.mp hc with hc | hc
  · rcases hmark with rfl | rfl <;> fin_cases hc <;> decide
  · rcases mem_cons.mp hc with rfl | hc
    · decide
    · exact (hchars c hc).1

theorem count_colon (h : validActorId id = true) : id.count ':' = 1 := by
  obtain ⟨mark, handle, rfl, hmark, hchars, -⟩ := exists_handle h
  have hhandle : handle.count ':' = 0 := count_eq_zero.mpr fun hc => (hchars _ hc).2.2 rfl
  rcases hmark with rfl | rfl <;> simp [hhandle]

theorem lower_of_validActorId (h : validActorId id = true) : Selector.lower id = id := by
  obtain ⟨mark, handle, rfl, hmark, hchars, -⟩ := exists_handle h
  have hhandle : handle.map Char.toLower = handle :=
    (map_congr_left fun c hc => (hchars c hc).2.1).trans (map_id handle)
  rcases hmark with rfl | rfl <;> simp [Selector.lower, hhandle]

def IsName (id : List Char) : Prop :=
  isAccountUuid (String.ofList id) = true ∨ validActorId id = true

theorem IsName.nameChar (h : IsName id) : ∀ c ∈ id, nameChar c = true := by
  rcases h with h | h
  · simpa using nameChar_of_isAccountUuid h
  · exact nameChar_of_validActorId h

theorem IsName.at_notMem (h : IsName id) : '@' ∉ id :=
  fun hc => (nameChar_plain (h.nameChar _ hc)).2.2 rfl

/-! ### White space -/

theorem count_dropWhile {p : Char → Bool} {c : Char} (h : p c = false) (s : List Char) :
    (s.dropWhile p).count c = s.count c := by
  have hnone : (s.takeWhile p).count c = 0 :=
    count_eq_zero.mpr fun hc => by simpa [h] using mem_takeWhile_imp hc
  conv_rhs => rw [← takeWhile_append_dropWhile (p := p) (l := s), count_append, hnone]
  omega

theorem count_trim {c : Char} (h : isWhitespace c = false) (s : List Char) :
    (trim s).count c = s.count c := by
  rw [trim, count_reverse, count_dropWhile h, count_reverse, count_dropWhile h]

theorem mem_trim {c : Char} (h : isWhitespace c = false) {s : List Char} :
    c ∈ trim s ↔ c ∈ s := by
  rw [← count_pos_iff, count_trim h, count_pos_iff]

theorem trim_of_visible {s : List Char} (h : ∀ c ∈ s, isWhitespace c = false) : trim s = s := by
  have hdrop : ∀ l : List Char, (∀ c ∈ l, isWhitespace c = false) →
      l.dropWhile isWhitespace = l := by
    intro l hl
    cases l with
    | nil => rfl
    | cons c l => rw [dropWhile_cons, hl c mem_cons_self]; rfl
  rw [trim, hdrop s h, hdrop _ (by simpa using h), reverse_reverse]

theorem trim_group (rest : List Char) : ∃ rest', trim ('g' :: ':' :: rest) = 'g' :: ':' :: rest' := by
  have hdrop : ('g' :: ':' :: rest).dropWhile isWhitespace = 'g' :: ':' :: rest :=
    dropWhile_cons_of_neg (by decide)
  have hrev : ('g' :: ':' :: rest).reverse = rest.reverse ++ [':', 'g'] := by simp
  rw [trim, hdrop, hrev, dropWhile_append]
  split
  · exact ⟨[], by decide⟩
  · exact ⟨(rest.reverse.dropWhile isWhitespace).reverse, by simp⟩

/-! ### What the parsers make of a text -/

/-- The name in a text, and the ISI before it. -/
inductive Reads (text : String) (id : List Char) : Option String → Prop where
  | name (trimmed : trim text.toList = id) (named : IsName id) : Reads text id none
  | isi {isi : List Char} (trimmed : trim text.toList = isi ++ '@' :: id)
    (word : validIsi isi = true) (named : IsName id) : Reads text id (some (String.ofList isi))

theorem validIsi_char (h : validIsi isi = true) {c : Char} (hc : c ∈ isi) :
    isWhitespace c = false ∧ isControl c = false ∧ c ≠ ':' ∧ c ≠ '@' := by
  have hchar := List.all_eq_true.mp (Bool.and_eq_true_iff.mp h).2 c hc
  simpa [and_assoc] using hchar

namespace Reads

variable {prefixed : Option String} (h : Reads text id prefixed)

include h

theorem named : IsName id := by
  cases h <;> assumption

theorem splitOnce_eq : splitOnce '@' (trim text.toList) =
    prefixed.map fun isi => (isi.toList, id) := by
  cases h with
  | name htext hid => exact splitOnce_eq_none_iff.mpr (htext ▸ hid.at_notMem)
  | isi htext hword =>
    refine splitOnce_eq_some_iff.mpr ⟨by simpa using htext, fun hc => ?_⟩
    exact (validIsi_char hword (by simpa using hc)).2.2.2 rfl

theorem base_eq : Selector.base (trim text.toList) = id := by
  cases h with
  | name htext hid => rw [htext, Selector.base_of_notMem hid.at_notMem]
  | isi htext _ hid => rw [htext, Selector.base_append hid.at_notMem]

theorem isiOf_eq : isiOf text = prefixed := by
  cases h with
  | name htext hid => rw [isiOf, htext, Selector.rsplitOnce_eq_none hid.at_notMem]; rfl
  | isi htext _ hid => rw [isiOf, htext, Selector.rsplitOnce_append hid.at_notMem]; rfl

theorem visible : ∀ c ∈ trim text.toList, isWhitespace c = false ∧ isControl c = false := by
  have hname : ∀ c ∈ id, isWhitespace c = false ∧ isControl c = false := fun c hc =>
    ⟨(nameChar_plain (h.named.nameChar c hc)).1, (nameChar_plain (h.named.nameChar c hc)).2.1⟩
  intro c hc
  cases h with
  | name htext hid => exact hname c (htext ▸ hc)
  | isi htext hword hid =>
    rw [htext, mem_append, mem_cons] at hc
    rcases hc with hc | rfl | hc
    · exact ⟨(validIsi_char hword hc).1, (validIsi_char hword hc).2.1⟩
    · decide
    · exact hname c hc

theorem ne_nil : trim text.toList ≠ [] := by
  cases h with
  | name htext hid =>
    rw [htext]
    rintro rfl
    rcases hid with hid | hid <;> revert hid <;> decide
  | isi htext _ hid => simp [htext]

/-- A text that is short enough is an identifier. -/
theorem tryFrom_eq (hshort : (String.ofList (trim text.toList)).utf8ByteSize ≤ 255) :
    ∃ a, ActorId.tryFrom text = some a ∧ a.value = String.ofList (trim text.toList) := by
  have hne : String.ofList (trim text.toList) ≠ "" := fun he =>
    h.ne_nil (by simpa using congrArg String.toList he)
  have hctl : (String.ofList (trim text.toList)).toList.any isControl = false := by
    rw [String.toList_ofList, List.any_eq_false]
    intro c hc
    simp [(h.visible c hc).2]
  exact ⟨_, dif_pos ⟨hne, hshort, hctl⟩, rfl⟩

theorem readable_eq : readable text = (isAccountUuid text ||
    ((prefixed.isNone || "si:".toList.isPrefixOf id) && validActorId id)) := by
  unfold readable
  rw [h.splitOnce_eq]
  cases h with
  | name htext => rw [htext]; rfl
  | isi htext hword => simp [hword]

/-- `address_parts` reads the name and the ISI, if that stands before a Silicon or a key. -/
theorem addressParts_eq (hsilicon : prefixed.isSome = true →
      ("si:".toList.isPrefixOf id || isAccountUuid (String.ofList id)) = true) :
    Ting.addressParts (String.ofList (trim text.toList)) = some (String.ofList id, prefixed) := by
  have hread : (isAccountUuid (String.ofList id) || validActorId id) = true :=
    Bool.or_eq_true_iff.mpr h.named
  unfold Ting.addressParts
  rw [String.toList_ofList, h.splitOnce_eq]
  cases h with
  | name htext => simp only [Option.map_none, htext, hread, if_true]
  | @isi isi htext hword =>
    have hgood : Ting.badPrefix (String.ofList isi).toList id = false := by
      simp only [Ting.badPrefix, hsilicon rfl, Bool.not_true, Bool.or_false, Bool.or_eq_false_iff,
        String.toList_ofList]
      refine ⟨by simpa using (Bool.and_eq_true_iff.mp hword).1, List.any_eq_false.mpr fun c hc => ?_⟩
      simp [validIsi_char hword hc]
    simp only [Option.map_some, hgood, hread, Bool.false_eq_true, if_false, if_true,
      String.ofList_toList]

theorem not_isAddress (hid : validActorId id = true) : isAddress text = false := by
  have hone : (trim text.toList).count ':' = 1 := by
    cases h with
    | name htext => rw [htext, count_colon hid]
    | isi htext hword =>
      have hn := count_eq_zero.mpr fun hc => (validIsi_char hword hc).2.2.1 rfl
      rw [htext, count_append, hn, count_cons_of_ne (by decide), count_colon hid]
  rw [isAddress, Bool.or_eq_false_iff]
  constructor
  · rw [Bool.eq_false_iff]
    intro hgroup
    obtain ⟨rest, hrest⟩ := isPrefixOf_iff_prefix.mp hgroup
    obtain ⟨rest', htrim⟩ := trim_group rest
    rw [← show "g:".toList ++ rest = 'g' :: ':' :: rest from rfl, hrest] at htrim
    cases h with
    | name htext =>
      rw [← htext, htrim] at hid
      simp [validActorId, publicIdParts] at hid
    | @isi isi htext hword =>
      rw [htrim] at htext
      -- the second character is one of the ISI, or the `@` behind it
      match isi, hword with
      | [], hword => cases hword
      | [x], _ => simp at htext
      | x :: y :: _, hword =>
        simp only [cons_append, List.cons.injEq] at htext
        exact (validIsi_char hword (by simp)).2.2.1 htext.2.1.symm
  · rw [Bool.eq_false_iff]
    intro hdoubled
    have htwice := Selector.two_le_count_of_doubled hdoubled
    rw [← count_trim (by decide), hone] at htwice
    omega

/-- Of the texts that `address_parts` reads, the grammar leaves out keys in white space or behind
an ISI: they do not name one account. -/
theorem namesOneAccount_iff (hsilicon : prefixed.isSome = true →
      ("si:".toList.isPrefixOf id || isAccountUuid (String.ofList id)) = true) :
    namesOneAccount text = true ↔ readable text = true := by
  have hkey : isAccountUuid text = true → namesOneAccount text = true := by
    intro hkey
    have hno := Link.colon_notMem_of_isAccountUuid hkey
    have haddr : isAddress text = false := by
      rw [isAddress, Bool.or_eq_false_iff, Bool.eq_false_iff, Bool.eq_false_iff]
      refine ⟨fun hgroup => hno ?_, fun hdoubled => hno ?_⟩
      · obtain ⟨rest, hrest⟩ := isPrefixOf_iff_prefix.mp hgroup
        rw [← hrest]
        simp
      · have := Selector.two_le_count_of_doubled hdoubled
        exact count_pos_iff.mp (by omega)
    simp [namesOneAccount, haddr, hkey]
  have hid : validActorId id = true → namesOneAccount text = true := by
    intro hid
    have hcolon : ':' ∈ text.toList := by
      refine (mem_trim (by decide)).mp ?_
      have hm : ':' ∈ id := count_pos_iff.mp (by rw [count_colon hid]; omega)
      cases h with
      | name htext => exact htext ▸ hm
      | isi htext => rw [htext]; simp [hm]
    simp [namesOneAccount, h.not_isAddress hid, hcolon]
  have hcolon : namesOneAccount text = true → isAccountUuid text = false →
      isAccountUuid (String.ofList id) = false ∧ validActorId id = true := by
    intro hnames hno
    have hm : ':' ∈ trim text.toList := by
      refine (mem_trim (by decide)).mpr ?_
      simpa [namesOneAccount, hno] using (Bool.and_eq_true_iff.mp hnames).2
    have hm : ':' ∈ id := by
      cases h with
      | name htext => exact htext ▸ hm
      | isi htext hword =>
        rw [htext, mem_append, mem_cons] at hm
        refine (hm.resolve_left fun hc => (validIsi_char hword hc).2.2.1 rfl).resolve_left ?_
        decide
    have hn : isAccountUuid (String.ofList id) = false := by
      rw [Bool.eq_false_iff]
      intro huuid
      exact Link.colon_notMem_of_isAccountUuid huuid (by simpa using hm)
    exact ⟨hn, h.named.resolve_left (by simp [hn])⟩
  rw [h.readable_eq, Bool.or_eq_true, Bool.and_eq_true]
  constructor
  · intro hnames
    cases huuid : isAccountUuid text with
    | true => exact .inl rfl
    | false =>
      obtain ⟨hn, hval⟩ := hcolon hnames huuid
      refine .inr ⟨?_, hval⟩
      cases prefixed with
      | none => rfl
      | some isi => simpa [hn] using hsilicon rfl
  · rintro (huuid | ⟨-, hval⟩)
    · exact hkey huuid
    · exact hid hval

end Reads

theorem trim_of_isAccountUuid (h : isAccountUuid key = true) : trim key.toList = key.toList :=
  trim_of_visible fun c hc => (nameChar_plain (nameChar_of_isAccountUuid h c hc)).1

/-- A text of the grammar can be read. -/
theorem exists_reads (h : readable text = true) : ∃ id prefixed, Reads text id prefixed ∧
    (prefixed.isSome = true → "si:".toList.isPrefixOf id = true ∧ validActorId id = true) := by
  rcases Bool.or_eq_true_iff.mp h with h | h
  · refine ⟨text.toList, none, .name (trim_of_isAccountUuid h) (.inl ?_), by simp⟩
    rwa [String.ofList_toList]
  · split at h
    case h_1 => exact ⟨_, none, .name rfl (.inr h), by simp⟩
    case h_2 isi id hsplit =>
      simp only [Bool.and_eq_true] at h
      exact ⟨id, _, .isi (splitOnce_eq_some_iff.mp hsplit).1 h.1.1 (.inr h.2), fun _ => ⟨h.1.2, h.2⟩⟩

theorem value_of_tryFrom {a : ActorId} (h : ActorId.tryFrom text = some a) :
    a.value = String.ofList (trim text.toList) := by
  unfold ActorId.tryFrom at h
  dsimp only at h
  split at h
  · exact (congrArg ActorId.value (Option.some.inj h)).symm
  · cases h

/-- What `address_parts` reads was an identifier with a name. -/
theorem reads_of_addressParts {a : ActorId} {base : String} {prefixed : Option String}
    (ha : ActorId.tryFrom text = some a) (h : Ting.addressParts a.value = some (base, prefixed)) :
    (String.ofList (trim text.toList)).utf8ByteSize ≤ 255 ∧
      ∃ id, base = String.ofList id ∧ Reads text id prefixed ∧ (prefixed.isSome = true →
        ("si:".toList.isPrefixOf id || isAccountUuid (String.ofList id)) = true) := by
  have hvalue := value_of_tryFrom ha
  have hvisible := a.visible
  refine ⟨hvalue ▸ a.short, ?_⟩
  simp only [Ting.addressParts, hvalue, String.toList_ofList] at h hvisible
  split at h
  case h_1 isi actor hsplit =>
    obtain ⟨htext, -⟩ := splitOnce_eq_some_iff.mp hsplit
    split_ifs at h with hbad hread
    obtain ⟨rfl, rfl⟩ : String.ofList actor = base ∧ some (String.ofList isi) = prefixed := by
      simpa using h
    simp only [Ting.badPrefix, Bool.not_eq_true, Bool.or_eq_false_iff, List.any_eq_false,
      Bool.not_eq_false'] at hbad
    have hword : validIsi isi = true := by
      simp only [validIsi, Bool.and_eq_true, List.all_eq_true]
      refine ⟨by simpa using hbad.1.1, fun c hc => ?_⟩
      have hctl : isControl c = false := by
        have hm : c ∈ trim text.toList := htext ▸ mem_append_left _ hc
        simpa using List.any_eq_false.mp hvisible c hm
      simpa [hctl, and_assoc] using hbad.1.2 c hc
    exact ⟨actor, rfl, .isi htext hword (Bool.or_eq_true_iff.mp hread),
      fun _ => hbad.2⟩
  case h_2 hsplit =>
    split_ifs at h with hread
    obtain ⟨rfl, rfl⟩ : String.ofList (trim text.toList) = base ∧ none = prefixed := by simpa using h
    exact ⟨_, rfl, .name rfl (Bool.or_eq_true_iff.mp hread), by simp⟩

/-! ### The account -/

section Account

variable {names : Names} {accounts : List Account} {row : Account} {prefixed : Option String}

/-- The holder of an id is an account of its kind: the check `accounts_kind_matches_id`. -/
def Kinds (names : Names) (accounts : List Account) : Prop :=
  ∀ id uuid row, names.holder id = some uuid → account accounts uuid = some row →
    kindMatchesId row.kind id = true

theorem parse_of_base (h : IsName id) (hbase : Selector.base (trim text.toList) = id) :
    Selector.parse text = .ok (if isAccountUuid (String.ofList id) then .uuid (String.ofList id)
      else .id (String.ofList id)) := by
  unfold Selector.parse
  simp only [hbase]
  split
  case isTrue => rfl
  case isFalse hno =>
    have hid := h.resolve_left hno
    obtain ⟨-, -, -, -, -, hvalid⟩ := exists_handle hid
    rw [lower_of_validActorId hid, if_pos hvalid]

/-- The name of a text resolves to the account of the text. -/
theorem Reads.resolve_name (h : Reads text id prefixed) :
    resolve names accounts (String.ofList id) = resolve names accounts text := by
  have htrim : trim (String.ofList id).toList = id := by
    rw [String.toList_ofList]
    exact trim_of_visible fun c hc => (nameChar_plain (h.named.nameChar c hc)).1
  unfold resolve
  rw [parse_of_base h.named h.base_eq, parse_of_base h.named (htrim.symm ▸
    Selector.base_of_notMem h.named.at_notMem)]

/-- Whoever is addressed with an ISI is a Silicon. -/
theorem Reads.kind_eq (h : Reads text id prefixed) (hks : Kinds names accounts)
    (hresolve : resolve names accounts text = .ok row) (hsi : "si:".toList.isPrefixOf id = true)
    (hid : validActorId id = true) : row.kind = .silicon := by
  have hno : isAccountUuid (String.ofList id) = false := by
    rw [Bool.eq_false_iff]
    intro huuid
    have hm : ':' ∈ id := count_pos_iff.mp (by rw [count_colon hid]; omega)
    exact Link.colon_notMem_of_isAccountUuid huuid (by simpa using hm)
  unfold resolve at hresolve
  rw [parse_of_base h.named h.base_eq, hno] at hresolve
  simp only [Bool.false_eq_true, if_false] at hresolve
  split at hresolve
  case h_1 => cases hresolve
  case h_2 found hfound =>
    split_ifs at hresolve
    cases hresolve
    obtain ⟨uuid, hholder, hget⟩ := bind_eq_some_iff.mp hfound
    have hkind := hks _ uuid _ hholder hget
    obtain ⟨handle, rfl⟩ := isPrefixOf_iff_prefix.mp hsi
    simpa [kindMatchesId, publicIdParts, eq_comm] using hkind

/-! ### The address that is stored -/

theorem Reads.stored (h : Reads text id prefixed) (hkey : isAccountUuid key = true) :
    Reads (storedText prefixed key) key.toList prefixed ∧
      trim (storedText prefixed key).toList = (storedText prefixed key).toList := by
  have hname : IsName key.toList := .inl (by rwa [String.ofList_toList])
  cases h with
  | name => exact ⟨.name (trim_of_isAccountUuid hkey) hname, trim_of_isAccountUuid hkey⟩
  | @isi isi htext hword =>
    have hlist : (storedText (some (String.ofList isi)) key).toList = isi ++ '@' :: key.toList := by
      simp [storedText]
    have htrim : trim (isi ++ '@' :: key.toList) = isi ++ '@' :: key.toList := by
      refine trim_of_visible fun c hc => ?_
      rcases mem_append.mp hc with hc | hc
      · exact (validIsi_char hword hc).1
      · rcases mem_cons.mp hc with rfl | hc
        · decide
        · exact (nameChar_plain (nameChar_of_isAccountUuid hkey c hc)).1
    exact ⟨.isi (by rw [hlist, htrim]) hword hname, by rw [hlist, htrim]⟩

/-- A text of the grammar is stored as the key of its account behind its ISI. -/
theorem resolveRecipient_of_readable (hread : readable text = true) (hks : Kinds names accounts)
    (h : resolve names accounts text = .ok row) (hkey : isAccountUuid row.uuid = true)
    (hshort : (String.ofList (trim text.toList)).utf8ByteSize ≤ 255)
    (hfits : (storedText (isiOf text) row.uuid).utf8ByteSize ≤ 255) :
    namesOneAccount text = true ∧ ∃ a stored parts, ActorId.tryFrom text = some a ∧
      resolveRecipient names accounts a = .ok stored ∧
      stored.value = storedText (isiOf text) row.uuid ∧ stored.addressParts = .ok parts ∧
      stored.addresses row.actor = true := by
  obtain ⟨id, prefixed, hreads, hsilicon⟩ := exists_reads hread
  obtain rfl := hreads.isiOf_eq
  have hkind : (isiOf text).isSome = true → row.kind = .silicon := fun hisi =>
    hreads.kind_eq hks h (hsilicon hisi).1 (hsilicon hisi).2
  have hsi : (isiOf text).isSome = true →
      ("si:".toList.isPrefixOf id || isAccountUuid (String.ofList id)) = true := fun hisi => by
    rw [(hsilicon hisi).1, Bool.true_or]
  obtain ⟨a, ha, hvalue⟩ := hreads.tryFrom_eq hshort
  obtain ⟨hstored, htrim⟩ := hreads.stored hkey
  have hown : String.ofList (trim (storedText (isiOf text) row.uuid).toList) =
      storedText (isiOf text) row.uuid := by
    rw [htrim, String.ofList_toList]
  obtain ⟨stored, hs, hsvalue⟩ := hstored.tryFrom_eq (by rwa [hown])
  have hparts := hstored.addressParts_eq fun _ => by rw [String.ofList_toList, hkey, Bool.or_true]
  rw [← hsvalue, String.ofList_toList] at hparts
  refine ⟨(hreads.namesOneAccount_iff hsi).mpr hread, a, stored, (row.uuid, isiOf text), ha, ?_,
    hsvalue.trans hown, ?_, ?_⟩
  · have hto : routedTo names accounts a = .ok (row, isiOf text) := by
      rw [routedTo, ActorId.addressParts, hvalue, hreads.addressParts_eq hsi]
      simp only [hreads.resolve_name, h]
      rfl
    have hmay : ((isiOf text).isNone || decide (row.kind = .silicon)) = true := by
      cases hisi : isiOf text with
      | none => rfl
      | some isi => simp [hkind (by rw [hisi]; rfl)]
    simp only [resolveRecipient, hto, hmay, require, if_true, bind, Except.bind, storageAddress]
    rw [show (isiOf text).elim row.uuid (· ++ "@" ++ row.uuid) = storedText (isiOf text) row.uuid
      from rfl, hs]
  · rw [ActorId.addressParts, hparts]
  · rw [ActorId.addresses, hparts]
    cases hisi : isiOf text with
    | none => simp [Account.actor]
    | some isi => simp [Account.actor, hkind (by rw [hisi]; rfl)]

/-- Only a text of the grammar gives an address that is stored. -/
theorem readable_of_resolveRecipient {a stored : ActorId} (hnames : namesOneAccount text = true)
    (ha : ActorId.tryFrom text = some a) (h : resolve names accounts text = .ok row)
    (hkey : isAccountUuid row.uuid = true)
    (hstored : resolveRecipient names accounts a = .ok stored) :
    readable text = true ∧ (String.ofList (trim text.toList)).utf8ByteSize ≤ 255 ∧
      (storedText (isiOf text) row.uuid).utf8ByteSize ≤ 255 := by
  obtain ⟨⟨account, prefixed⟩, hto, hstored⟩ := bind_eq_ok.mp hstored
  obtain ⟨_, -, hstored⟩ := bind_eq_ok.mp hstored
  unfold routedTo ActorId.addressParts at hto
  cases hparts : Ting.addressParts a.value with
  | none => rw [hparts] at hto; cases hto
  | some parts =>
    obtain ⟨hshort, id, hbase, hreads, hsilicon⟩ := reads_of_addressParts ha hparts
    rw [hparts] at hto
    simp only [hbase, hreads.resolve_name, h] at hto
    obtain ⟨rfl, rfl⟩ : row = account ∧ parts.2 = prefixed := by simpa [Except.map] using hto
    refine ⟨(hreads.namesOneAccount_iff hsilicon).mp hnames, hshort, ?_⟩
    rw [hreads.isiOf_eq]
    obtain ⟨-, htrim⟩ := hreads.stored hkey
    unfold storageAddress at hstored
    split at hstored
    case h_1 address haddress =>
      have hvalue : address.value = String.ofList (trim (storedText parts.2 row.uuid).toList) :=
        value_of_tryFrom haddress
      rw [htrim, String.ofList_toList] at hvalue
      exact hvalue ▸ address.short
    case h_2 => cases hstored

end Account

/-! ### The conversation -/

section Conversation

variable {d : Deployment} {e : Moment} {actor : ActorRef} {row : Account} {b b' : Backend}
  {c : Nat} {ps : List ActorRef}

/-- The row of a direct conversation lists who takes part. -/
def Rosters (b : Backend) : Prop :=
  ∀ direct ∈ b.directs, ∀ p, p ∈ Directs.roster b.db direct.conversation ↔ p ∈ direct.participants

/-- Sending is allowed: there is a conversation, or one may be started now. -/
inductive Allowed (d : Deployment) (e : Moment) (actor : ActorRef) (row : Account) (b : Backend) :
    Prop where
  | known (c : Nat) (canonical : b.canonicalDirect [actor, row.actor] = some c)
  | first (unknown : b.canonicalDirect [actor, row.actor] = none)
    (reach : requireFirstContact e actor [row] b = .ok ())
    (record : ∀ record ∈ b.records, record.key ≠ recipientKey d actor row)
    (fresh : b.db.conversation e.conversationId = none)

/-- The canonical direct conversation of the two, in a state with nothing else that is new to a
message. -/
structure Reached (e : Moment) (actor : ActorRef) (row : Account) (b : Backend) (c : Nat)
    (b' : Backend) (ps : List ActorRef) : Prop where
  stands : Addresses.Stands b' c ps
  members : ∀ p, p ∈ ps ↔ p ∈ [actor, row.actor]
  canonical : b'.canonicalDirect [actor, row.actor] = some c
  current : b'.supersededBy.lookup c = none
  accounts : b'.db.accounts = b.db.accounts
  messages : b'.db.messages = b.db.messages
  deliveries : b'.db.deliveries = b.db.deliveries
  records : ∀ record ∈ b'.records, record ∈ b.records ∨ record.key.operation = "conversations.create"
  origin : c = e.conversationId ∨ b' = b

theorem Reached.live (h : Reached e actor row b c b' ps) (hac : b.db.deleted actor.id = false)
    (hr : b.db.deleted row.uuid = false) : ∀ p ∈ ps, b'.db.deleted p.id = false := by
  intro p hp
  have hsame : b'.db.deleted p.id = b.db.deleted p.id := by
    unfold Database.deleted
    rw [h.accounts]
  rw [hsame]
  rcases mem_cons.mp ((h.members p).mp hp) with rfl | hp
  · exact hac
  · rw [mem_singleton.mp hp]
    exact hr

theorem Reached.length_eq (h : Reached e actor row b c b' ps) (hoth : row.uuid ≠ actor.id) :
    ps.length = 2 := by
  have hne : actor ≠ row.actor := fun heq => hoth (congrArg ActorRef.id heq).symm
  have hperm : ps.Perm [actor, row.actor] :=
    (perm_ext_iff_of_nodup h.stands.nodup (by simpa using hne)).mpr h.members
  exact hperm.length_eq

theorem reached_of_known (hs : Directs.Sound b) (hrosters : Rosters b)
    (h : b.canonicalDirect [actor, row.actor] = some c) :
    Reached e actor row b c b (Directs.roster b.db c) := by
  obtain ⟨direct, hfind, rfl⟩ := map_eq_some_iff.mp h
  have hm := mem_of_find?_eq_some hfind
  have hfnd := find?_some hfind
  simp only [Bool.and_eq_true, isNone_iff_eq_none] at hfnd
  have hset : ∀ p, p ∈ direct.participants ↔ p ∈ [actor, row.actor] := by
    have hsame := hfnd.1
    simp only [sameSet, Bool.and_eq_true, List.all_eq_true, decide_eq_true_eq] at hsame
    exact fun p => ⟨hsame.1 p, hsame.2 p⟩
  exact {
    stands := Addresses.stands_of_sound hs (hs.directs direct hm)
    members := fun p => (hrosters direct hm p).trans (hset p)
    canonical := h
    current := hfnd.2
    accounts := rfl
    messages := rfl
    deliveries := rfl
    records := fun _ h => .inl h
    origin := .inr rfl }

theorem reached_of_first (hs : Directs.Sound b) (hoth : row.uuid ≠ actor.id)
    (hlive : b.db.deleted actor.id = false) (hr : b.db.deleted row.uuid = false)
    (hn : b.canonicalDirect [actor, row.actor] = none)
    (hreach : requireFirstContact e actor [row] b = .ok ())
    (hrec : ∀ record ∈ b.records, record.key ≠ recipientKey d actor row)
    (hfr : b.db.conversation e.conversationId = none) :
    ∃ b', startConversation d e actor [row] none b = (.ok e.conversationId, b') ∧
      Reached e actor row b e.conversationId b' [row.actor, actor] := by
  have hne : row.actor ≠ actor := fun heq => hoth (congrArg ActorRef.id heq)
  have hswap : ∀ p, p ∈ [row.actor, actor] ↔ p ∈ [actor, row.actor] := fun p => by
    simp [or_comm]
  have hn' : b.canonicalDirect [row.actor, actor] = none :=
    (canonicalDirect_congr hswap).trans hn
  obtain ⟨records, hrecs, hcr, hstart⟩ := startConversation_fresh hoth hn hreach hrec hfr
  obtain ⟨hkp, hgrp⟩ := Directs.creates_createConversation hcr
  have hsd := (hkp hs).sound
  have hroster : Directs.roster (insertDirect e actor [row.actor, actor] b).db e.conversationId =
      [row.actor, actor] := by
    rw [Directs.roster_insertDirect, Directs.roster_of_fresh hs.anchors hfr, if_pos rfl]
    rfl
  have hrch : Reached e actor row b e.conversationId
      { insertDirect e actor [row.actor, actor] b with records } [row.actor, actor] := {
    stands :=
      { direct := hgrp hs
        rows := hroster
        nodup := by simpa using hne
        notGroup := (Addresses.stands_of_sound hsd (hgrp hs)).notGroup }
    members := hswap
    canonical := (canonicalDirect_congr hswap).symm.trans (canonicalDirect_insertDirect hn')
    current := (lookup_filter_ne _ _ _).trans (if_pos rfl)
    accounts := rfl
    messages := rfl
    deliveries := rfl
    records := fun record h => (hrecs record h).imp_right fun hkey => congrArg (·.operation) hkey
    origin := .inl rfl }
  refine ⟨_, ?_, hrch⟩
  rw [hstart]
  refine Handler.read_bind_eq_ok.mpr ⟨.conversation e.conversationId, ?_, rfl⟩
  have hmbr : actor ∈ [row.actor, actor] := by simp
  rw [getConversation, hrch.stands.conversationAccess (hrch.live hlive hr) hmbr]

/-- Where sending is allowed, the path of the account's key leads to the conversation. -/
theorem reached_of_allowed (hs : Directs.Sound b) (hrosters : Rosters b)
    (hoth : row.uuid ≠ actor.id) (hlive : b.db.deleted actor.id = false)
    (hac : account b.db.accounts row.uuid = some row) (hact : row.status ≠ .deleted)
    (halwd : Allowed d e actor row b) :
    ∃ c b' ps, targetConversation d e actor (.recipient row.uuid) true b = (.ok c, b') ∧
      Reached e actor row b c b' ps := by
  have hr : b.db.deleted row.uuid = false := by
    simp [Database.deleted, isDeleted, hac, hact]
  have hresolved : otherAccount actor row.uuid b = .ok row := by
    simp [otherAccount, Backend.resolve, hac, hact, hoth, require, bind, Except.bind]
  cases halwd with
  | known c hcan =>
    refine ⟨c, b, _, ?_, reached_of_known hs hrosters hcan⟩
    refine Handler.read_bind_eq_ok.mpr ⟨row, hresolved, ?_⟩
    exact Handler.read_bind_eq_ok.mpr ⟨some c, congrArg Except.ok hcan, rfl⟩
  | first hn hreach hrec hfr =>
    obtain ⟨b', hsta, hrch⟩ :=
      reached_of_first hs hoth hlive hr hn hreach hrec hfr
    refine ⟨e.conversationId, b', _, ?_, hrch⟩
    refine Handler.read_bind_eq_ok.mpr ⟨row, hresolved, ?_⟩
    refine Handler.read_bind_eq_ok.mpr ⟨none, congrArg Except.ok hn, ?_⟩
    exact Handler.read_bind_eq_ok.mpr ⟨(), rfl, hsta⟩

end Conversation

/-! ### The message -/

section Message

variable {names : Names} {d : Deployment} {e : Moment} {wire : Wire} {actor : ActorRef}
  {row : Account} {s : Sending.Store} {b b' : Backend} {c : Nat} {ps : List ActorRef}
  {m m' : MessageCreate} {a : ActorId} {headers : List String} {text key : String}
  {content : Reading MessageCreate}

/-- A message that may be sent: without its recipient it resolves to `m'`, which passes. -/
structure Sendable (names : Names) (e : Moment) (actor : ActorRef) (s : Sending.Store)
    (m m' : MessageCreate) : Prop where
  resolved : resolveRouting names actor { m with recipientId := none } s.service.backend = .ok m'
  valid : m'.validate = .ok ()
  sender : ∀ address ∈ m'.senderId, address.addresses actor = true
  storable : m'.Storable
  used : UsedBefore e.now actor m' s.recent

variable {stored : ActorId} {parts : String × Option String}

theorem resolveRouting_with (haccs : b'.db.accounts = b.db.accounts)
    (h : resolveRouting names actor { m with recipientId := none } b = .ok m')
    (hrcp : resolveRecipient names b.db.accounts a = .ok stored) :
    resolveRouting names actor { m with recipientId := some a } b' =
      .ok { m' with recipientId := some stored } := by
  obtain ⟨senderId, hsnd, h⟩ := bind_eq_ok.mp h
  cases h
  unfold resolveRouting
  rw [haccs]
  refine bind_eq_ok.mpr ⟨senderId, hsnd, ?_⟩
  refine bind_eq_ok.mpr ⟨some stored, ?_, rfl⟩
  simp only [mapM_some, hrcp]
  rfl

/-- A recipient whose address can be read leaves a message valid. -/
theorem validate_with (hn : m.recipientId = none) (h : m.validate = .ok ())
    (hsto : stored.addressParts = .ok parts) :
    { m with recipientId := some stored }.validate = .ok () := by
  obtain ⟨_, haddrs, hrest⟩ := bind_eq_ok.mp h
  refine bind_eq_ok.mpr ⟨(), ?_, hrest⟩
  rw [hn] at haddrs
  have hall := forM_eq_ok.mp haddrs
  refine forM_eq_ok.mpr fun address hm => ?_
  cases hsnd : m.senderId with
  | none =>
    simp only [hsnd, List.reduceOption] at hm
    obtain rfl : address = stored := by simpa using hm
    rw [hsto]
    rfl
  | some sender =>
    have hm' : address = sender ∨ address = stored := by
      simpa [hsnd, List.reduceOption] using hm
    rcases hm' with rfl | rfl
    · exact hall address (by simp [hsnd, List.reduceOption])
    · rw [hsto]
      rfl

variable (d wire) in
/-- In the conversation of the two, the message is stored with the address. -/
theorem send_reached (hrch : Reached e actor row s.service.backend c b' ps)
    (hoth : row.uuid ≠ actor.id) (hlive : s.service.backend.db.deleted actor.id = false)
    (hr : s.service.backend.db.deleted row.uuid = false)
    (huns : Addresses.Unsent s.service.backend e actor key) (hm : Sendable names e actor s m m')
    (hrpls : Replies b' c m')
    (hrcp : resolveRecipient names s.service.backend.db.accounts a = .ok stored)
    (hsto : stored.addressParts = .ok parts) (haddrs : stored.addresses row.actor = true) :
    ∃ s' sequence, send names d e wire actor c key { m with recipientId := some a }
        (s.withBackend b') = (.ok (.message e.messageId), s') ∧
      b'.Steady s'.service.backend ∧
      Addresses.Accepted s.service s'.service ⟨e.messageId, c, actor, sequence⟩ ps ∧
      ∃ rows, s'.contents = s.contents ++ [(e.messageId, rows)] ∧
        rows.message.recipientAddress = some stored.value := by
  have hps := hrch.live hlive hr
  have hac : actor ∈ ps := (hrch.members actor).mpr (by simp)
  have huns' : Addresses.Unsent b' e actor key := by
    refine ⟨?_, ?_, ?_⟩
    · rw [Database.message, hrch.messages]
      exact huns.message
    · rw [hrch.deliveries]
      exact huns.deliveries
    · intro record hmem hkey
      rcases hrch.records record hmem with hold | hoperation
      · exact huns.key record hold hkey
      · rw [hkey] at hoperation
        exact absurd hoperation (show "messages.create" ≠ "conversations.create" by decide)
  have hn : m'.recipientId = none := by
    obtain ⟨senderId, -, h⟩ := bind_eq_ok.mp hm.resolved
    cases h
    rfl
  have hresolved := resolveRouting_with hrch.accounts hm.resolved hrcp
  have hval := validate_with hn hm.valid hsto
  have haddr : (Addresses.conversationAddress wire.texts b' c).isSome = true := by
    rw [Addresses.isSome_conversationAddress hrch.stands]
    exact decide_eq_true (hrch.length_eq hoth)
  have hrt : Routed actor ps { m' with recipientId := some stored } := by
    refine ⟨hm.sender, ?_⟩
    rintro address ⟨⟩
    exact List.any_eq_true.mpr ⟨row.actor, (hrch.members _).mpr (by simp), haddrs⟩
  obtain ⟨s', sequence, hsend, hacc, hcontents⟩ := sendMessage_of_valid (d := d)
    (s := s.withBackend b') (hrch.stands.holds hps) hac huns' haddr hval hm.storable
    hrt hrpls hm.used
  refine ⟨s', sequence, ?_, steady_sendMessage hsend,
    ⟨hacc.stored, hacc.delivered, hacc.handed, hacc.kept⟩, _, hcontents, rfl⟩
  unfold send
  have hcur := hrch.stands.requireCurrent hps hrch.current
  rw [Handler.bind_of_ok (onStore_read hcur), Handler.bind_of_ok (onStore_read hresolved)]
  exact Handler.read_bind_eq_ok.mpr ⟨(), requireContent_eq_ok hval hrt.sender, hsend⟩

/-- A recipient that a message is stored with was read from the text as an address. -/
theorem recipient_of_contents {answer : Rendered} {s' : Sending.Store} {id : Nat} {rows : Rows}
    {value : String}
    (h : sendToRecipient names d e wire actor headers (.ok ⟨some text, content⟩) s =
      (.ok answer, s'))
    (hcontents : s'.contents = s.contents ++ [(id, rows)])
    (hvalue : rows.message.recipientAddress = some value) :
    namesOneAccount text = true ∧ ∃ target c b' a stored,
      pathTarget names actor text s.service.backend = .ok target ∧
      targetConversation d e actor target true s.service.backend = (.ok c, b') ∧
      ActorId.tryFrom text = some a ∧ resolveRecipient names b'.db.accounts a = .ok stored := by
  obtain ⟨_, -, h⟩ := Handler.read_bind_eq_ok.mp h
  obtain ⟨_, ⟨⟩, h⟩ := Handler.read_bind_eq_ok.mp h
  obtain ⟨_, ⟨⟩, h⟩ := Handler.read_bind_eq_ok.mp h
  obtain ⟨target, hpath, h⟩ := onStore_read_bind_eq_ok.mp h
  obtain ⟨c, b', htarget, h⟩ := onStore_bind_eq_ok.mp h
  obtain ⟨_, -, h⟩ := onStore_read_bind_eq_ok.mp h
  obtain ⟨_, -, h⟩ := Handler.read_bind_eq_ok.mp h
  obtain ⟨m, -, h⟩ := onStore_read_bind_eq_ok.mp h
  obtain ⟨routed, hrouted, h⟩ := Handler.read_bind_eq_ok.mp h
  obtain ⟨_, -, h⟩ := onStore_read_bind_eq_ok.mp h
  obtain ⟨resolved, hresolved, h⟩ := onStore_read_bind_eq_ok.mp h
  obtain ⟨_, -, h⟩ := Handler.read_bind_eq_ok.mp h
  obtain ⟨address, haddress⟩ : ∃ address, resolved.recipientId = some address := by
    rcases contents_of_sendMessage h with hsame | ⟨_, rows', happended, hrow⟩
    · have hlength := congrArg List.length (hcontents.symm.trans hsame)
      simp [Sending.Store.withBackend] at hlength
    · obtain ⟨-, rfl⟩ : _ ∧ rows' = rows := by
        simpa [Sending.Store.withBackend] using happended.symm.trans hcontents
      rw [hrow] at hvalue
      exact (Option.map_eq_some_iff.mp hvalue).imp fun _ => And.left
  obtain ⟨_, -, hresolved⟩ := bind_eq_ok.mp hresolved
  obtain ⟨recipient, hrecipient, hresolved⟩ := bind_eq_ok.mp hresolved
  obtain rfl := Except.ok.inj hresolved
  obtain rfl : recipient = some address := haddress
  unfold routedBody at hrouted
  split_ifs at hrouted with hnone
  · obtain rfl := Except.ok.inj hrouted
    cases hrecipient
  · obtain ⟨-, hnames⟩ : _ ∧ namesOneAccount text = true := by simpa using hnone
    split at hrouted
    case h_2 => cases hrouted
    case h_1 a ha =>
      obtain rfl := Except.ok.inj hrouted
      obtain ⟨stored, hstored, -⟩ := bind_eq_ok.mp hrecipient
      exact ⟨hnames, target, c, b', a, stored, hpath, htarget, ha, hstored⟩

/-- A text that names an account other than the sender reaches it exactly if it is of the grammar
and neither it nor what is stored is too long: the message goes to the canonical direct conversation
of the two, and is stored with the key of the account behind the ISI of the text. The text is the
uuid of no conversation the sender sees, nor that of the one that is started. -/
theorem recipients_are_reached (text : String)
    (hs : Directs.Sound s.service.backend) (hrosters : Rosters s.service.backend)
    (hkinds : Kinds names s.service.backend.db.accounts)
    (hresolve : resolve names s.service.backend.db.accounts text = .ok row)
    (hother : row.uuid ≠ actor.id) (hkey : isAccountUuid row.uuid = true)
    (huuid : ∀ c, names.parseUuid text = some c →
      s.service.backend.db.conversationAccess actor c = none ∧ c ≠ e.conversationId)
    (hlive : s.service.backend.db.deleted actor.id = false)
    (hallowed : Allowed d e actor row s.service.backend)
    (hheaders : idempotencyKey headers = .ok key)
    (hunsent : Addresses.Unsent s.service.backend e actor key)
    (hm : Sendable names e actor s m m')
    (hcontent : ∀ c b', targetConversation d e actor (.recipient row.uuid) true s.service.backend =
      (.ok c, b') → content c b' = .ok m ∧ Replies b' c m') :
    (∃ c s' sequence ps, sendToRecipient names d e wire actor headers (.ok ⟨some text, content⟩) s =
        (.ok (.message e.messageId), s') ∧
      s'.service.backend.canonicalDirect [actor, row.actor] = some c ∧
      (∀ p, p ∈ ps ↔ p ∈ [actor, row.actor]) ∧
      Addresses.Accepted s.service s'.service ⟨e.messageId, c, actor, sequence⟩ ps ∧
      ∃ rows, s'.contents = s.contents ++ [(e.messageId, rows)] ∧
        rows.message.recipientAddress = some (storedText (isiOf text) row.uuid)) ↔
    readable text = true ∧ (String.ofList (trim text.toList)).utf8ByteSize ≤ 255 ∧
      (storedText (isiOf text) row.uuid).utf8ByteSize ≤ 255 := by
  obtain ⟨haccount, hactive⟩ := account_of_resolve hresolve
  have hrow : s.service.backend.db.deleted row.uuid = false := by
    simp [Database.deleted, isDeleted, haccount, hactive]
  obtain ⟨c, b', ps, htarget, hreached⟩ :=
    reached_of_allowed hs hrosters hother hlive haccount hactive hallowed
  have hpath : isAddress text = false →
      pathTarget names actor text s.service.backend = .ok (.recipient row.uuid) := by
    intro hno
    have hnone : ((names.parseUuid text).filter fun c =>
        (s.service.backend.db.conversationAccess actor c).isSome) = none := by
      rw [filter_eq_none_iff]
      intro c' hc'
      simp [(huuid c' hc').1]
    rw [pathTarget, hnone]
    simp only [hno, Bool.false_eq_true, if_false, hresolve]
    rfl
  have hnot : namesOneAccount text = true → isAddress text = false := fun hnames => by
    simpa using (Bool.and_eq_true_iff.mp hnames).1
  constructor
  · rintro ⟨c', s', sequence, ps', hsend, -, -, -, rows, hcontents, hrecipient⟩
    obtain ⟨hnames, target, c₁, b₁, a, stored, hpath', htarget', ha, hstored⟩ :=
      recipient_of_contents hsend hcontents hrecipient
    obtain rfl := Except.ok.inj (hpath'.symm.trans (hpath (hnot hnames)))
    obtain ⟨-, rfl⟩ := Prod.mk.inj (htarget'.symm.trans htarget)
    rw [hreached.accounts] at hstored
    exact readable_of_resolveRecipient hnames ha hresolve hkey hstored
  · rintro ⟨hreadable, hshort, hfits⟩
    obtain ⟨hnames, a, stored, parts, ha, hstored, hvalue, hparts, haddresses⟩ :=
      resolveRecipient_of_readable hreadable hkinds hresolve hkey hshort hfits
    obtain ⟨hread, hreplies⟩ := hcontent c b' htarget
    have hps := hreached.live hlive hrow
    have hactor : actor ∈ ps := (hreached.members actor).mpr (by simp)
    obtain ⟨s', sequence, hsend, hsteady, haccepted, rows, hrows, hrecipient⟩ :=
      send_reached d wire hreached hother hlive hrow hunsent hm hreplies hstored hparts haddresses
    have hbody : routedBody names text c m = .ok { m with recipientId := some a } := by
      have hne : text ≠ names.uuidText c := by
        intro heq
        obtain ⟨hinvisible, hnew⟩ := huuid c (by rw [heq, names.parse_uuidText])
        rcases hreached.origin with rfl | rfl
        · exact hnew rfl
        · rw [hreached.stands.conversationAccess hps hactor] at hinvisible
          cases hinvisible
      simp [routedBody, hne, hnames, ha]
    have haccess : Backend.access actor c (s.withBackend b').service.backend = .ok .participant :=
      hreached.stands.access hps hactor
    refine ⟨c, s', sequence, ps, ?_, ?_, hreached.members, haccepted, rows, hrows,
      by rw [hrecipient, hvalue]⟩
    · unfold sendToRecipient
      refine Handler.read_bind_eq_ok.mpr ⟨key, hheaders, ?_⟩
      refine Handler.read_bind_eq_ok.mpr ⟨_, rfl, Handler.read_bind_eq_ok.mpr ⟨text, rfl, ?_⟩⟩
      refine onStore_read_bind_eq_ok.mpr ⟨_, hpath (hnot hnames), ?_⟩
      refine onStore_bind_eq_ok.mpr ⟨c, b', htarget, ?_⟩
      refine onStore_read_bind_eq_ok.mpr ⟨_, haccess, ?_⟩
      refine Handler.read_bind_eq_ok.mpr ⟨(), rfl, ?_⟩
      refine onStore_read_bind_eq_ok.mpr ⟨m, hread, ?_⟩
      exact Handler.read_bind_eq_ok.mpr ⟨_, hbody, hsend⟩
    · rw [hsteady.canonicalDirect]
      exact hreached.canonical

end Message

/-! ### How Ada addresses Scout and Bea -/

open FirstContact (plain ada neighbours)

def quietStreet : Sending.Store :=
  ⟨⟨neighbours.backend, []⟩, [], [], []⟩

def scoutRow : Account :=
  { Account.new "scout" .silicon with custodianUuid := some "bea" }

theorem kinds_listed : Kinds listed neighbours.backend.db.accounts := by
  intro id uuid row hholder hr
  have hm : (id, uuid) ∈ [("c:ada", "ada"), ("c:bea", "bea"), ("si:scout", "scout")] :=
    mem_of_lookup hholder
  simp only [mem_cons, Prod.mk.injEq, not_mem_nil, or_false] at hm
  rcases hm with ⟨rfl, rfl⟩ | ⟨rfl, rfl⟩ | ⟨rfl, rfl⟩
  · obtain rfl : Account.new "ada" .carbon = row := Option.some.inj hr
    decide
  · obtain rfl : Account.new "bea" .carbon = row := Option.some.inj hr
    decide
  · obtain rfl : scoutRow = row := Option.some.inj hr
    decide

def addressing (recipient : String) : Except Refusal Rendered × Sending.Store :=
  sendToRecipient listed plain ⟨2, 5, 3, 0⟩ plainWire ada ["send-hello"]
    (.ok ⟨some recipient, composed (saying "hello")⟩) quietStreet

/-- Ada may write to Scout, and does so for the first time. The recipient stands between blanks. -/
theorem recipients_are_reached_scout :
    ∃ c s' sequence ps, addressing " deep@si:scout " = (.ok (.message 3), s') ∧
      s'.service.backend.canonicalDirect [ada, scoutRow.actor] = some c ∧
      (∀ p, p ∈ ps ↔ p ∈ [ada, scoutRow.actor]) ∧
      Addresses.Accepted quietStreet.service s'.service ⟨3, c, ada, sequence⟩ ps ∧
      ∃ rows, s'.contents = [(3, rows)] ∧ rows.message.recipientAddress = some "deep@scout" := by
  have hheaders : idempotencyKey ["send-hello"] = .ok "send-hello" := by decide +kernel
  have hm : Sendable listed ⟨2, 5, 3, 0⟩ ada quietStreet (saying "hello") (saying "hello") :=
    ⟨rfl, by decide +kernel, by rintro _ ⟨⟩, by decide +kernel, by rintro _ ⟨⟩⟩
  have hallowed : Allowed plain ⟨2, 5, 3, 0⟩ ada scoutRow quietStreet.service.backend :=
    .first (by decide +kernel) (by decide +kernel) (by decide +kernel) (by decide +kernel)
  have hcontent : ∀ c b', targetConversation plain ⟨2, 5, 3, 0⟩ ada (.recipient scoutRow.uuid) true
      quietStreet.service.backend = (.ok c, b') →
      composed (saying "hello") c b' = .ok (saying "hello") ∧ Replies b' c (saying "hello") :=
    fun _ _ _ => ⟨rfl, by rintro _ ⟨⟩⟩
  refine (recipients_are_reached " deep@si:scout "
    (Directs.sound_of_reachable Addresses.reachable_neighbours) (by rintro _ ⟨⟩) kinds_listed
    (by decide +kernel) (by decide) (by decide) ?_ (by decide +kernel) hallowed hheaders
    ⟨by decide +kernel, by decide +kernel, by decide +kernel⟩ hm hcontent).mpr (by decide +kernel)
  intro c hc
  have hnone : listed.parseUuid " deep@si:scout " = none := by decide +kernel
  rw [hnone] at hc
  cases hc

/-- `resolve` reads ids in any letter case and keys behind an ISI. As recipients the first are
refused, and the account and the ISI of the second are not stored. -/
theorem recipients_are_lost :
    resolve listed neighbours.backend.db.accounts "C:BEA" = .ok (.new "bea" .carbon) ∧
    (addressing "c:bea").1 = .ok (.message 3) ∧
    (addressing "C:BEA").1 = .error (.validation "actor ID must be c:handle or si:handle") ∧
    resolve listed neighbours.backend.db.accounts "deep@scout" = .ok scoutRow ∧
    (addressing "deep@scout").1 = .ok (.message 3) ∧
    (addressing "deep@scout").2.contents.map (·.2.message.recipientAddress) = [none] := by
  refine ⟨?_, ?_, ?_, ?_, ?_, ?_⟩ <;> decide +kernel

end SiliconDm.Server.Routes.Recipients
