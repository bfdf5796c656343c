import SiliconDm.Link.Mapping
import SiliconDm.Server.Backend

/-!
# What a caller may call an account

Accounts are named by their id (`c:handle`, `si:handle`), by an address with an ISI
(`isi@si:handle`), or by their uuid. Several parsers read these texts: `resolve` of the
directory here, the routing addresses of messages and the paths of conversations elsewhere.
Source: `src/application/accounts.rs:253–271`.
-/

namespace SiliconDm.Server.Selector

open Link (trim isAccountUuid)

/-! ### Parts of a text -/

/-- `str::split_once`. -/
def splitOnce (c : Char) : List Char → Option (List Char × List Char)
  | [] => none
  | x :: xs => if x = c then some ([], xs) else (splitOnce c xs).map fun p => (x :: p.1, p.2)

/-- `str::rsplit_once`. -/
def rsplitOnce (c : Char) (s : List Char) : Option (List Char × List Char) :=
  (splitOnce c s.reverse).map fun p => (p.2.reverse, p.1.reverse)

/-- `str::contains` of a character twice in a row. -/
def doubled (c : Char) (s : List Char) : Bool :=
  (s.zip s.tail).any fun p => p.1 = c && p.2 = c

/-- `str::to_ascii_lowercase`. -/
def lower (s : List Char) : List Char :=
  s.map Char.toLower

section Parts

variable {c : Char} {s t u : List Char}

theorem splitOnce_eq_none_iff : splitOnce c s = none ↔ c ∉ s := by
  induction s with
  | nil => simp [splitOnce]
  | cons x xs ih =>
    by_cases hx : x = c
    · simp [splitOnce, hx]
    · simp [splitOnce, hx, ih, Ne.symm hx]

theorem splitOnce_eq_some_iff : splitOnce c s = some (t, u) ↔ s = t ++ c :: u ∧ c ∉ t := by
  induction s generalizing t with
  | nil => simp [splitOnce]
  | cons x xs ih =>
    cases t with
    | nil =>
      by_cases hx : x = c
      · simp [splitOnce, hx]
      · simp [splitOnce, hx]
    | cons y t =>
      by_cases hx : x = c
      · subst hx
        simp +contextual [splitOnce]
      · simp only [splitOnce, if_neg hx, Option.map_eq_some_iff, Prod.exists, Prod.mk.injEq,
          List.cons.injEq, List.cons_append, List.mem_cons, not_or]
        constructor
        · rintro ⟨_, _, h, ⟨rfl, rfl⟩, rfl⟩
          exact ⟨⟨rfl, (ih.mp h).1⟩, Ne.symm hx, (ih.mp h).2⟩
        · rintro ⟨⟨rfl, h⟩, -, ht⟩
          exact ⟨t, u, ih.mpr ⟨h, ht⟩, ⟨rfl, rfl⟩, rfl⟩

theorem rsplitOnce_eq_none (h : c ∉ s) : rsplitOnce c s = none := by
  rw [rsplitOnce, splitOnce_eq_none_iff.mpr (by simpa using h)]
  rfl

theorem rsplitOnce_append (h : c ∉ t) : rsplitOnce c (s ++ c :: t) = some (s, t) := by
  have hsplit : splitOnce c (s ++ c :: t).reverse = some (t.reverse, s.reverse) :=
    splitOnce_eq_some_iff.mpr ⟨by simp, by simpa using h⟩
  rw [rsplitOnce, hsplit]
  simp

/-- Twice in a row is twice. -/
theorem two_le_count_of_doubled (h : doubled c s = true) : 2 ≤ s.count c := by
  induction s with
  | nil => cases h
  | cons x xs ih =>
    cases xs with
    | nil => cases h
    | cons y ys =>
      have hcons : doubled c (x :: y :: ys) = ((x = c && y = c) || doubled c (y :: ys)) := rfl
      rw [hcons, Bool.or_eq_true] at h
      rcases h with h | h
      · simp only [Bool.and_eq_true, decide_eq_true_eq] at h
        obtain ⟨rfl, rfl⟩ := h
        simp
      · exact (ih h).trans (List.count_le_count_cons ..)

end Parts

/-! ### Groups -/

/-- `valid_slug`. `crates/protocol/src/lib.rs:168–177`. -/
def validSlug (slug : List Char) : Bool :=
  slug ≠ [] && (String.ofList slug).utf8ByteSize ≤ 140 && slug.head? ≠ some '-' &&
    slug.getLast? ≠ some '-' && !doubled '-' slug &&
    slug.all fun c => c.isLower || c.isDigit || c = '-'

/-- `valid_group_id`: `g:slug`, or `g:org:slug` of older groups.
`crates/protocol/src/lib.rs:149–166`. -/
def validGroupId (value : List Char) : Bool :=
  match value with
  | 'g' :: ':' :: rest =>
    match splitOnce ':' rest with
    | none => validSlug rest
    | some (org, slug) =>
      org.head?.any Char.isAlphanum && (String.ofList org).utf8ByteSize ≤ 255 &&
        org.all (fun c => c.isAlphanum || c = '-' || c = '_') && validSlug slug
  | _ => false

/-! ### Selectors -/

/-- What `resolve` looks an account up by. -/
inductive Named where
  | uuid (uuid : String)
  | id (id : String)
  deriving DecidableEq, Repr

/-- The part of a selector that names the account: what follows its last `@`. -/
def base (selector : List Char) : List Char :=
  ((rsplitOnce '@' selector).map (·.2)).getD selector

theorem base_of_notMem {s : List Char} (h : '@' ∉ s) : base s = s := by
  rw [base, rsplitOnce_eq_none h]
  rfl

theorem base_append {s t : List Char} (h : '@' ∉ t) : base (s ++ '@' :: t) = t := by
  rw [base, rsplitOnce_append h]
  rfl

/-- The texts that `resolve` accepts, and what it looks up for each. -/
def parse (selector : String) : Except Refusal Named :=
  let selector := trim selector.toList
  let base := base selector
  if isAccountUuid (String.ofList base) then .ok (.uuid (String.ofList base))
  else
    let id := String.ofList (lower base)
    if validPublicId id then .ok (.id id)
    else .error (.validation ("`" ++ String.ofList selector ++ "` is not an account id: use " ++
      "c:handle for a Carbon or si:handle for a Silicon (or the account's uuid)"))

example : parse " Deliberate@SI:Scout" = .ok (.id "si:scout") := by decide +kernel

example : parse "zQo" = .ok (.uuid "zQo") := by decide +kernel

end SiliconDm.Server.Selector
