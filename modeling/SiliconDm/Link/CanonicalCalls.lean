import SiliconDm.Link.OneCanonical

/-!
# Calls for a canonical conversation

What the transaction of a call may rely on at each of its statements while others commit, what its
commit does, and why it fails. A record of an earlier call is the one way to be answered without
looking at the conversations.
-/

namespace SiliconDm.Link.Canonical

open Base List Option
open Server (ActorType)

variable {H R : Type} {e : Hashing H R} {strict : Prop} {d d' : Store H R} {s s' : Tables H}
  {c : Call} {id : Nat}

/-! ## What an open transaction relies on -/

def Call.claims (e : Hashing H R) (c : Call) : List (Record R) :=
  c.recordKey.toList.map fun key => ⟨key, e.request c.participants, none⟩

def Call.completions (e : Hashing H R) (c : Call) (id : Nat) : List (Record R) :=
  c.recordKey.toList.map fun key => ⟨key, e.request c.participants, some id⟩

def Statement.isRefresh : Statement → Bool
  | .refreshOrganization | .refreshActor _ => true
  | _ => false

/-- How a call came to its conversation, with what it wrote for it. -/
inductive Made (e : Hashing H R) (s : Tables H) (c : Call) (locks : List (Lock H)) :
    Nat → Delta H R → Prop
  | found {id : Nat} (h : Names s id c.participants) : Made e s c locks id {}
  | inserted (hf : Fresh e s c) (hrow : .row c.candidate ∈ locks) :
      Made e s c locks c.candidate (inserted e c)

/-- The statements of a call with what it has written before each. -/
inductive Stage (e : Hashing H R) (strict : Prop) (s : Tables H) (c : Call)
    (locks : List (Lock H)) : Delta H R → List Statement → Prop
  | rejected (h : c.accepted = false) : Stage e strict s c locks {} [.reject]
  | opening (refreshes : List Statement) (h : ∀ stmt ∈ refreshes, stmt.isRefresh = true) :
      Stage e strict s c locks {} (refreshes ++ [c.recordKey.elim (.select c) (.claim c)])
  | replaying {key : RecordKey} (hk : c.recordKey = some key) :
      Stage e strict s c locks {} [.replay c key]
  | replayed {id : Nat} (h : strict → Names s id c.participants) :
      Stage e strict s c locks {} [.answer c id]
  | selecting : Stage e strict s c locks { records := c.claims e } [.select c]
  | inserting : Stage e strict s c locks { records := c.claims e } [.insert c]
  | reselecting {row : Conversation H} (h : row ∈ s.conversations)
      (hcan : row.isCanonical = true) (hhash : row.setHash = c.hash e) :
      Stage e strict s c locks { records := c.claims e } [.reselect c]
  | populating (done rest : List (ActorType × String)) (hsplit : c.participants = done ++ rest)
      (hf : Fresh e s c) (hrow : .row c.candidate ∈ locks) :
      Stage e strict s c locks
        { conversations := [c.row e], participants := done.map c.participantRow,
          records := c.claims e }
        (rest.map (.participant c) ++ c.finish c.candidate)
  | closing {id : Nat} {made : Delta H R} (h : Made e s c locks id made) :
      Stage e strict s c locks { made with records := c.claims e } (c.finish id)
  | completed {id : Nat} {made : Delta H R} (h : Made e s c locks id made) :
      Stage e strict s c locks { made with records := c.claims e ++ c.completions e id }
        [.answer c id]
  | answered {id : Nat} {made : Delta H R} (h : Made e s c locks id made) :
      Stage e strict s c locks
        { made with records := c.claims e ++ c.completions e id, answers := [⟨c, id⟩] } []
  | repeated {id : Nat} (h : strict → Names s id c.participants) :
      Stage e strict s c locks { answers := [⟨c, id⟩] } []

/-- What holds of an open transaction beside the committed tables. -/
def Asserts (e : Hashing H R) (strict : Prop) (d : Store H R)
    (t : Transaction (Store H R) Statement Unit (Write H R) (Lock H) Task) : Prop :=
  match t.task with
  | .call c _ => (c.accepted = true ∨ t.todo = [.reject]) ∧
    Stage e strict d.tables c t.locks (delta t.writes) t.todo
  | .forget key =>
    t.todo = [.forget key] ∧ t.writes = [] ∨ t.todo = [] ∧ t.writes = [.forget key]

section

variable [DecidableEq H] [DecidableEq R] {locks locks' : List (Lock H)}
  {ws : List (Write H R)} {made : Delta H R} {o : Outcome Statement Unit (Write H R) (Lock H)}
  {stmt : Statement} {rest : List Statement}

omit [DecidableEq H] [DecidableEq R] in
theorem Made.mono (h : Made e s c locks id made) (hl : locks ⊆ locks') :
    Made e s c locks' id made := by
  cases h with
  | found h => exact .found h
  | inserted hf hr => exact .inserted hf (hl hr)

theorem canonicalOf_view (h : (delta ws).conversations = []) (hash : H) :
    canonicalOf ((language e).applyAll d ws).tables hash = canonicalOf d.tables hash := by
  unfold canonicalOf
  rw [view_conversations, h, append_nil]

/-- The first look-up. -/
theorem stage_select (hsha : Function.Injective e.sha256) (hd : Sound e strict d)
    (hc : ∀ a ∈ c.names, Fits a.2) (hδ : delta ws = { records := c.claims e })
    (ho : (Statement.select c).exec e ((language e).applyAll d ws) = some o) :
    Stage e strict d.tables c (locks ++ (language e).needs o) (delta (ws ++ o.writes))
      (o.next ++ []) := by
  simp only [Statement.exec] at ho
  rw [canonicalOf_view (by rw [hδ])] at ho
  split at ho
  case h_1 id hid =>
    cases ho
    simp only [append_nil, hδ]
    exact .closing (.found (hd.directs.names_of_canonicalOf hsha hc hid))
  case h_2 =>
    cases ho
    simp only [append_nil, hδ]
    exact .inserting

/-- The insert that conflicts with nothing, or with a conversation that is committed. -/
theorem stage_insert (hδ : delta ws = { records := c.claims e })
    (ho : (Statement.insert c).exec e ((language e).applyAll d ws) = some o) :
    Stage e strict d.tables c (locks ++ (language e).needs o) (delta (ws ++ o.writes))
      (o.next ++ []) := by
  simp only [Statement.exec] at ho
  rw [canonicalOf_view (by rw [hδ]), view_conversations, hδ, append_nil] at ho
  split at ho
  case h_1 id hid =>
    cases ho
    obtain ⟨row, hr, -, hcan, hhash⟩ := mem_of_canonicalOf hid
    simp only [append_nil, hδ]
    exact .reselecting hr hcan hhash
  case h_2 hn =>
    split at ho
    case isTrue => cases ho
    case isFalse hany =>
      cases ho
      have hf : Fresh e d.tables c := by
        intro row hr
        refine ⟨fun hid => hany (List.any_eq_true.mpr ⟨row, hr, by simp [hid]⟩), ?_⟩
        exact canonicalOf_eq_none_iff.mp hn row hr
      rw [delta_conversation, hδ, append_nil]
      exact .populating [] _ rfl hf (by simp [Language.needs])

omit [DecidableEq H] [DecidableEq R] in
theorem Made.frame (h : Made e s c locks id made) :
    made.records = [] ∧ made.forgotten = [] ∧ made.answers = [] := by
  cases h <;> exact ⟨rfl, rfl, rfl⟩

variable {key : RecordKey}

/-- The record a transaction sees under its key once it has claimed it. -/
theorem record_view (hk : c.recordKey = some key) (hr : (delta ws).records = c.claims e)
    (hf : (delta ws).forgotten = []) :
    ((language e).applyAll d ws).record key = some ⟨key, e.request c.participants, none⟩ := by
  unfold Store.record
  rw [view_records e d hf, hr, Call.claims, hk]
  show getRow Record.key (put Record.key ⟨key, _, none⟩ d.records) key = _
  rw [getRow_put]
  simp

theorem record_unclaimed (hδ : delta ws = {}) (key : RecordKey) :
    ((language e).applyAll d ws).record key = d.record key := by
  unfold Store.record
  rw [view_records e d (by rw [hδ]), hδ]
  rfl

/-- Completing the claim, or answering at once. -/
theorem stage_finish (hm : Made e d.tables c locks id made)
    (hδ : delta ws = { made with records := c.claims e }) (htodo : c.finish id = stmt :: rest)
    (ho : stmt.exec e ((language e).applyAll d ws) = some o) :
    Stage e strict d.tables c (locks ++ (language e).needs o) (delta (ws ++ o.writes))
      (o.next ++ rest) := by
  have hm' : Made e d.tables c (locks ++ (language e).needs o) id made :=
    hm.mono (subset_append_left _ _)
  obtain ⟨-, hforg, hans⟩ := hm.frame
  cases hk : c.recordKey with
  | none =>
    simp only [Call.finish, hk, toList_none, map_nil, nil_append] at htodo
    obtain ⟨rfl, rfl⟩ := List.cons.inj htodo
    cases ho
    have hrecs : c.claims e ++ c.completions e id = c.claims e := by
      simp [Call.completions, hk]
    rw [delta_answer, hδ]
    simp only [hans, nil_append]
    rw [← hrecs]
    exact .answered hm'
  | some key =>
    simp only [Call.finish, hk, toList_some, map_cons, map_nil,
      cons_append, nil_append] at htodo
    obtain ⟨rfl, rfl⟩ := List.cons.inj htodo
    have hrec := record_view (d := d) hk (by rw [hδ]) (by rw [hδ]; exact hforg)
    simp only [Statement.exec, hrec] at ho
    cases ho
    have hrecs : c.completions e id = [⟨key, e.request c.participants, some id⟩] := by
      simp [Call.completions, hk]
    rw [delta_record, hδ, ← hrecs]
    have hcomp : Stage e strict d.tables c _ _ _ := .completed hm'
    exact hcomp

/-- One statement of a call. -/
theorem Stage.exec (hsha : Function.Injective e.sha256) (hreq : Function.Injective e.request)
    (hd : Sound e strict d) (hc : ∀ a ∈ c.names, Fits a.2)
    (h : Stage e strict d.tables c locks (delta ws) (stmt :: rest))
    (ho : stmt.exec e ((language e).applyAll d ws) = some o) :
    Stage e strict d.tables c (locks ++ (language e).needs o) (delta (ws ++ o.writes))
      (o.next ++ rest) := by
  generalize hδ : delta ws = δ at h
  generalize htodo : stmt :: rest = todo at h
  cases h with
  | rejected =>
    obtain ⟨rfl, rfl⟩ := List.cons.inj htodo
    cases ho
  | opening refreshes hrfr =>
    cases refreshes with
    | nil =>
      obtain ⟨rfl, rfl⟩ := List.cons.inj htodo
      cases hk : c.recordKey with
      | none =>
        rw [hk] at ho
        exact stage_select hsha hd hc (by rw [hδ, Call.claims, hk]; rfl) ho
      | some key =>
        rw [hk] at ho
        simp only [elim_some, Statement.exec] at ho
        split at ho
        case h_1 =>
          cases ho
          have hclaims : c.claims e = [⟨key, e.request c.participants, none⟩] := by
            rw [Call.claims, hk]
            rfl
          rw [delta_record, hδ]
          show Stage e strict d.tables c _ { records := [_] } [.select c]
          rw [← hclaims]
          exact .selecting
        case h_2 =>
          cases ho
          simp only [append_nil, hδ]
          exact .replaying hk
    | cons first refreshes =>
      obtain ⟨rfl, rfl⟩ := List.cons.inj htodo
      have hrest : ∀ stmt ∈ refreshes, stmt.isRefresh = true :=
        fun stmt hstmt => hrfr stmt (mem_cons_of_mem _ hstmt)
      have hfst := hrfr stmt mem_cons_self
      cases stmt with
      | refreshOrganization =>
        cases ho
        rw [append_nil, hδ]
        exact .opening refreshes hrest
      | refreshActor a =>
        cases ho
        rw [delta_anchor, hδ]
        exact .opening refreshes hrest
      | _ => cases hfst
  | @replaying key hk =>
    obtain ⟨rfl, rfl⟩ := List.cons.inj htodo
    simp only [Statement.exec, record_unclaimed hδ] at ho
    split at ho
    case h_1 => cases ho
    case h_2 r hr =>
      split at ho
      case isFalse => cases ho
      case isTrue hhash =>
        obtain ⟨id, hid, rfl⟩ := map_eq_some_iff.mp ho
        simp only [append_nil, hδ]
        refine .replayed fun hstrc => ?_
        -- the record was made for these participants
        obtain ⟨names, hns, -, hrsc⟩ :=
          hd.faithful hstrc r (mem_of_getRow_eq_some hr).1
        rw [hreq (hhash.symm.trans hns)]
        exact hrsc id hid
  | replayed hns =>
    obtain ⟨rfl, rfl⟩ := List.cons.inj htodo
    cases ho
    rw [delta_answer, hδ]
    exact .repeated hns
  | selecting =>
    obtain ⟨rfl, rfl⟩ := List.cons.inj htodo
    exact stage_select hsha hd hc hδ ho
  | inserting =>
    obtain ⟨rfl, rfl⟩ := List.cons.inj htodo
    exact stage_insert hδ ho
  | reselecting hrow hcan hhash =>
    obtain ⟨rfl, rfl⟩ := List.cons.inj htodo
    simp only [Statement.exec] at ho
    rw [canonicalOf_view (by rw [hδ])] at ho
    obtain ⟨id, hid, rfl⟩ := map_eq_some_iff.mp ho
    simp only [append_nil, hδ]
    exact .closing (.found (hd.directs.names_of_canonicalOf hsha hc hid))
  | populating done rest' hsplit hf hrow =>
    cases rest' with
    | nil =>
      rw [append_nil] at hsplit
      refine stage_finish (.inserted hf hrow) ?_ htodo.symm ho
      rw [hδ, inserted, hsplit]
    | cons a rest' =>
      obtain ⟨rfl, rfl⟩ := List.cons.inj htodo
      cases ho
      have hdone : done.map c.participantRow ++ [c.participantRow a] =
          (done ++ [a]).map c.participantRow := by simp
      rw [delta_participant, hδ, hdone]
      exact .populating (done ++ [a]) rest' (by simpa using hsplit) hf
        (mem_append_left _ hrow)
  | closing hm => exact stage_finish hm hδ htodo.symm ho
  | completed hm =>
    obtain ⟨rfl, rfl⟩ := List.cons.inj htodo
    cases ho
    obtain ⟨-, -, hans⟩ := hm.frame
    rw [delta_answer, hδ]
    simp only [hans, nil_append]
    exact .answered (hm.mono (subset_append_left _ _))
  | answered | repeated => cases htodo

/-! ## Commits -/

omit [DecidableEq H] [DecidableEq R] in
/-- What a finished call has done to the tables. -/
theorem Stage.finished (h : Stage e strict s c locks made []) :
    ∃ id, made.answers = [⟨c, id⟩] ∧ made.forgotten = [] ∧
      ((∃ δ, Made e s c locks id δ ∧ made.conversations = δ.conversations ∧
          made.participants = δ.participants ∧
          made.records = c.claims e ++ c.completions e id) ∨
        made.conversations = [] ∧ made.participants = [] ∧ made.records = [] ∧
          (strict → Names s id c.participants)) := by
  generalize htodo : ([] : List Statement) = todo at h
  cases h with
  | answered hm => exact ⟨_, rfl, hm.frame.2.1, .inl ⟨_, hm, rfl, rfl, rfl⟩⟩
  | repeated hns => exact ⟨_, rfl, rfl, .inr ⟨rfl, rfl, rfl, hns⟩⟩
  | opening refreshes => simp at htodo
  | populating done rest | closing => simp [Call.finish] at htodo
  | _ => cases htodo

omit [DecidableEq H] [DecidableEq R] in
/-- Inserting the conversation of a call keeps the tables sound. -/
theorem Directs.inserted (h : Directs e s) (hc : ∀ a ∈ c.names, Fits a.2) (hf : Fresh e s c)
    (hi : Inserted e c s s') : Directs e s' where
  forest := h.forest_inserted hc hf hi
  fits := by
    rw [hi.participants]
    intro p hp
    rcases mem_append.mp hp with hp | hp
    · exact h.fits p hp
    · obtain ⟨a, ha, rfl⟩ := List.mem_map.mp hp
      exact hc a (mem_canonicalize.mp ha)
  distinct := by
    rw [hi.participants, map_append, List.map_map]
    refine List.Nodup.append h.distinct ?_ ?_
    · refine (nodup_canonicalize c.names).map ?_
      intro a b hab
      simpa [Call.participantRow, Prod.ext_iff] using hab
    · intro k hk hk'
      obtain ⟨p, hp, rfl⟩ := List.mem_map.mp hk
      obtain ⟨a, -, heq⟩ := List.mem_map.mp hk'
      exact h.unowned hf p hp (congrArg Prod.fst heq).symm
  owned := by
    rw [hi.participants, hi.conversations]
    intro p hp
    rcases mem_append.mp hp with hp | hp
    · obtain ⟨row, hr, hid⟩ := h.owned p hp
      exact ⟨row, mem_append_left _ hr, hid⟩
    · obtain ⟨a, -, rfl⟩ := List.mem_map.mp hp
      exact ⟨c.row e, mem_append_right _ (mem_singleton_self _), rfl⟩

omit [DecidableEq H] [DecidableEq R] in
/-- The tables once what a call wrote for its conversation is committed. -/
theorem Made.commit (h : Made e s c locks id made) (hs : Directs e s)
    (hc : ∀ a ∈ c.names, Fits a.2)
    (hconv : s'.conversations = s.conversations ++ made.conversations)
    (hpart : s'.participants = s.participants ++ made.participants) :
    Directs e s' ∧ Grows s s' ∧ Names s' id c.participants := by
  cases h with
  | found h =>
    rw [append_nil] at hconv hpart
    exact ⟨hs.congr hconv hpart, .of_eq hconv hpart, h.grows (.of_eq hconv hpart)⟩
  | inserted hf hr =>
    have hi : Inserted e c s s' := ⟨hconv, hpart⟩
    refine ⟨hs.inserted hc hf hi, hi.grows hf, c.row e, ?_, rfl, rfl,
      hi.participantSet_eq (hs.unowned hf)⟩
    rw [hconv]
    exact mem_append_right _ (mem_singleton_self _)

omit [DecidableEq H] [DecidableEq R] in
/-- A record after a call: one that was there, or the call's own. -/
theorem mem_records {r : Record R}
    (h : r ∈ (c.claims e ++ c.completions e id).foldl
      (fun records r => put Record.key r records) d.records) :
    r ∈ d.records ∨ ∃ key, c.recordKey = some key ∧
      r = ⟨key, e.request c.participants, some id⟩ := by
  cases hk : c.recordKey with
  | none =>
    simp only [Call.claims, Call.completions, hk] at h
    exact .inl h
  | some key =>
    simp only [Call.claims, Call.completions, hk, toList_some, map_cons,
      map_nil, cons_append, nil_append, foldl_cons, foldl_nil] at h
    rcases mem_put h with rfl | ⟨h, hne⟩
    · exact .inr ⟨key, rfl, rfl⟩
    · rcases mem_put h with rfl | ⟨h, -⟩
      · exact absurd rfl hne
      · exact .inl h

omit [DecidableEq H] [DecidableEq R] in
theorem keyed_foldl_put {records rs : List (Record R)} (h : Keyed Record.key records) :
    Keyed Record.key (rs.foldl (fun records r => put Record.key r records) records) := by
  induction rs generalizing records with
  | nil => exact h
  | cons r rs ih => exact ih (h.put r)

omit [DecidableEq H] [DecidableEq R] in
/-- The caller of an accepted call is one of its participants. -/
theorem mem_of_recordKey (ha : c.accepted = true) (hk : c.recordKey = some key) :
    key.actor ∈ c.participants := by
  cases c with
  | create creator names k candidate now =>
    cases hk
    simp only [Call.accepted, Bool.and_eq_true, contains_iff_mem] at ha
    exact ha.2
  | ensure a b candidate now => cases hk

omit [DecidableEq H] [DecidableEq R] in
/-- Growing tables with the records they had, and the call's own. -/
theorem Sound.grown (hd : Sound e strict d) (hdirs : Directs e d'.tables)
    (hg : Grows d.tables d'.tables) (hkd : Keyed Record.key d'.records)
    (hrecs : ∀ r ∈ d'.records, r ∈ d.records ∨
      ∃ key names id, r = ⟨key, e.request names, some id⟩ ∧ key.actor ∈ names ∧
        Names d'.tables id names) :
    Sound e strict d' where
  directs := hdirs
  keyed := hkd
  completed := by
    intro r hr
    rcases hrecs r hr with hr | ⟨key, names, id, rfl, -⟩
    · exact hd.completed r hr
    · rfl
  faithful := by
    intro hstrc r hr
    rcases hrecs r hr with hr | ⟨key, names, id, rfl, hac, hns⟩
    · obtain ⟨names, hhash, hac, hns⟩ := hd.faithful hstrc r hr
      exact ⟨names, hhash, hac, fun id hid => (hns id hid).grows hg⟩
    · refine ⟨names, rfl, hac, ?_⟩
      rintro _ ⟨⟩
      exact hns

/-- What the commit of a transaction does: the tables stay sound and grow, and an answer names
the canonical conversation of its call. -/
theorem Asserts.commit {t : Transaction (Store H R) Statement Unit (Write H R) (Lock H) Task}
    (hd : Sound e strict d) (h : Asserts e strict d t) (htodo : t.todo = []) :
    Sound e strict ((language e).view d t) ∧
      Grows d.tables ((language e).view d t).tables ∧
      ∀ a ∈ (delta t.writes).answers, strict →
        Names ((language e).view d t).tables a.conversation a.call.participants := by
  have hconv := view_conversations e d t.writes
  have hpart := view_participants e d t.writes
  unfold Language.view
  unfold Asserts at h
  split at h
  case h_1 c hc htask =>
    obtain ⟨hacc, h⟩ := h
    have hacc := hacc.resolve_right (by simp [htodo])
    rw [htodo] at h
    obtain ⟨id, hans, hforg, hcase⟩ := h.finished
    have hrecs := view_records e d hforg
    rw [hans]
    rcases hcase with ⟨δ, hm, hδconv, hδpart, hδrec⟩ | ⟨hδconv, hδpart, hδrec, hns⟩
    · rw [hδconv] at hconv
      rw [hδpart] at hpart
      rw [hδrec] at hrecs
      obtain ⟨hdirs, hgrows, hns⟩ := hm.commit hd.directs hc hconv hpart
      refine ⟨hd.grown hdirs hgrows ?_ ?_, hgrows, ?_⟩
      · rw [hrecs]
        exact keyed_foldl_put hd.keyed
      · intro r hr
        rw [hrecs] at hr
        rcases mem_records hr with hr | ⟨key, hk, rfl⟩
        · exact .inl hr
        · exact .inr ⟨key, c.participants, id, rfl, mem_of_recordKey hacc hk, hns⟩
      · intro a ha _
        obtain rfl := mem_singleton.mp ha
        exact hns
    · rw [hδconv, append_nil] at hconv
      rw [hδpart, append_nil] at hpart
      rw [hδrec] at hrecs
      have hgrows : Grows d.tables ((language e).applyAll d t.writes).tables :=
        .of_eq hconv hpart
      refine ⟨hd.grown (hd.directs.congr hconv hpart) hgrows ?_ ?_, hgrows, ?_⟩
      · rw [hrecs]
        exact hd.keyed
      · intro r hr
        rw [hrecs] at hr
        exact .inl hr
      · intro a ha hstrc
        obtain rfl := mem_singleton.mp ha
        exact (hns hstrc).grows hgrows
  case h_2 key htask =>
    obtain ⟨-, hws⟩ := h.resolve_left (by simp [htodo])
    rw [hws]
    refine ⟨hd.grown hd.directs (.of_eq rfl rfl) (hd.keyed.filter _) ?_, .of_eq rfl rfl,
      by simp [delta]⟩
    intro r hr
    exact .inl (mem_filter.mp hr).1

/-! ## Reliance on other transactions -/

omit [DecidableEq H] [DecidableEq R] in
/-- Tables that keep canonical conversations keep what a call relies on, if they keep its
insertion fresh. -/
theorem Stage.mono {todo : List Statement} (h : Stage e strict s c locks made todo)
    (hns : ∀ id names, Names s id names → Names s' id names)
    (hrs : ∀ row ∈ s.conversations, row.isCanonical = true →
      ∃ row' ∈ s'.conversations, row'.isCanonical = true ∧ row'.setHash = row.setHash)
    (hfr : c.row e ∈ made.conversations → .row c.candidate ∈ locks → Fresh e s c →
      Fresh e s' c) :
    Stage e strict s' c locks made todo := by
  have hmade : ∀ {id δ}, Made e s c locks id δ → made.conversations = δ.conversations →
      Made e s' c locks id δ := by
    intro id δ hm hconv
    cases hm with
    | found h => exact .found (hns _ _ h)
    | inserted hf hr =>
      exact .inserted (hfr (by rw [hconv]; exact mem_singleton_self _) hr hf) hr
  cases h with
  | rejected h => exact .rejected h
  | opening refreshes hrfr => exact .opening refreshes hrfr
  | replaying hk => exact .replaying hk
  | replayed h => exact .replayed fun hstrc => hns _ _ (h hstrc)
  | selecting => exact .selecting
  | inserting => exact .inserting
  | reselecting hr hcan hhash =>
    obtain ⟨row', hr', hcan', hhash'⟩ := hrs _ hr hcan
    exact .reselecting hr' hcan' (hhash'.trans hhash)
  | populating done rest hsplit hf hr =>
    exact .populating done rest hsplit (hfr (mem_singleton_self _) hr hf) hr
  | closing hm => exact .closing (hmade hm rfl)
  | completed hm => exact .completed (hmade hm rfl)
  | answered hm => exact .answered (hmade hm rfl)
  | repeated h => exact .repeated fun hstrc => hns _ _ (h hstrc)

variable {row : Conversation H}

/-- A finished transaction holds the id and the index entry of what it inserted. -/
theorem Asserts.locked {u : Transaction (Store H R) Statement Unit (Write H R) (Lock H) Task}
    (h : Asserts e strict d u) (htodo : u.todo = []) (hcov : (language e).Covered u)
    (hr : row ∈ (delta u.writes).conversations) :
    .row row.id ∈ u.locks ∧ .set row.setHash ∈ u.locks := by
  refine ⟨?_, hcov _ (mem_of_mem_conversations hr)⟩
  unfold Asserts at h
  split at h
  case h_1 c hc htask =>
    obtain ⟨-, h⟩ := h
    rw [htodo] at h
    obtain ⟨id, -, -, ⟨δ, hm, hconv, -⟩ | ⟨hconv, -⟩⟩ := h.finished
    · rw [hconv] at hr
      cases hm with
      | found => cases hr
      | inserted hf hlock =>
        obtain rfl := mem_singleton.mp hr
        exact hlock
    · rw [hconv] at hr
      cases hr
  case h_2 key htask =>
    obtain ⟨-, hws⟩ := h.resolve_left (by simp [htodo])
    rw [hws] at hr
    cases hr

/-- The assertions are kept by every transaction's own statements and commit, and by the commits
of the others. -/
theorem relyGuarantee (hsha : Function.Injective e.sha256) (hreq : Function.Injective e.request) :
    (language e).RelyGuarantee (fun _ _ => true) (fun _ _ => true) (Sound e strict)
      (Asserts e strict) where
  start := by
    intro d id task hd
    cases task with
    | call c hc =>
      show (_ ∨ c.code = [.reject]) ∧ Stage e strict d.tables c [] {} c.code
      unfold Call.code
      split
      case isTrue ha =>
        refine ⟨.inl ha, .opening _ ?_⟩
        intro stmt hstmt
        rcases mem_cons.mp hstmt with rfl | hstmt
        · rfl
        · obtain ⟨a, -, rfl⟩ := List.mem_map.mp hstmt
          rfl
      case isFalse ha => exact ⟨.inr rfl, .rejected (by simpa using ha)⟩
    | forget key => exact .inl ⟨rfl, rfl⟩
  exec := by
    intro d t stmt rest o hd ht hcov htodo ho
    cases htask : t.task with
    | call c hc =>
      simp only [Asserts, htask] at ht
      obtain ⟨hacc, hstage⟩ := ht
      rw [htodo] at hacc hstage
      have hstage' := hstage.exec hsha hreq hd hc ho
      simp only [Asserts, Language.advance, htask]
      refine ⟨hacc.imp_right fun hreject => ?_, hstage'⟩
      -- a refused call has no second statement
      obtain ⟨rfl, -⟩ := List.cons.inj hreject
      cases ho
    | forget key =>
      simp only [Asserts, htask, htodo] at ht
      obtain ⟨hstmt, hws⟩ := ht.resolve_right (by simp)
      obtain ⟨rfl, rfl⟩ := List.cons.inj hstmt
      cases ho
      simp [Asserts, Language.advance, htask, hws]
  commit := by
    intro d t hd ht htodo _ _
    exact (ht.commit hd htodo).1
  rely := by
    intro d t u hd ht hu hcov hcov' hdisj _ htodo _
    have hg := (hu.commit hd htodo).2.1
    cases htask : t.task with
    | call c hc =>
      simp only [Asserts, htask] at ht ⊢
      refine ⟨ht.1, ht.2.mono (fun _ _ hns => hns.grows hg)
        (fun row hr hcan => ⟨row, hg.mem hr, hcan, rfl⟩) fun hm hlock hf => ?_⟩
      have hset := hcov _ (mem_of_mem_conversations hm)
      intro row hr
      rw [Language.view, view_conversations] at hr
      rcases mem_append.mp hr with hr | hr
      · exact hf row hr
      · -- the other transaction holds other locks
        obtain ⟨hrowlock, hsetlock⟩ := hu.locked htodo hcov' hr
        constructor
        · intro hid
          rw [hid] at hrowlock
          exact hdisj hlock hrowlock
        · intro _ hhash
          rw [hhash] at hsetlock
          exact hdisj hset hsetlock
    | forget key => simpa only [Asserts, htask] using ht

/-! ## Calls that fail -/

omit [DecidableEq H] [DecidableEq R] in
/-- A participant set that has a direct conversation has a canonical one. -/
theorem Directs.exists_canonical (h : Directs e s) (hr : row ∈ s.conversations)
    (hg : row.isGroup = false) :
    ∃ root ∈ s.conversations, root.isCanonical = true ∧ root.setHash = row.setHash := by
  have hsupport : ∀ a b, pointer s.conversations a = some b → a ∈ s.conversations.map (·.id) := by
    intro a b hab
    obtain ⟨c, hc, rfl, -⟩ := exists_of_pointer hab
    exact List.mem_map_of_mem hc
  obtain ⟨n, r, -, hleads⟩ := h.forest.acyclic.within hsupport row.id
  generalize ha : row.id = a at hleads
  induction hleads generalizing row with
  | root hn =>
    subst ha
    rw [pointer_of_mem h.forest.keyed hr] at hn
    exact ⟨row, hr, isCanonical_iff.mpr ⟨hg, hn⟩, rfl⟩
  | link hab _ ih =>
    subst ha
    obtain ⟨next, hnext, rfl, hng, hset⟩ := h.forest.links _ _ hab row hr rfl hg
    obtain ⟨root, hroot, hcan, hhash⟩ := ih hnext hng rfl
    refine ⟨root, hroot, hcan, hhash.trans ?_⟩
    rw [h.forest.hashes next hnext hng, h.forest.hashes row hr hg, hset]

/-- Why a statement of a call fails: the call is not a valid one, its key was used with other
content, its record was deleted before it could be read again, or the id it drew is taken. -/
inductive Refused (e : Hashing H R) (d : Store H R) (c : Call) : Statement → Prop
  | invalid (h : c.accepted = false) : Refused e d c .reject
  | reused {key : RecordKey} {r : Record R} (hr : d.record key = some r)
      (h : r.hash ≠ e.request c.participants) : Refused e d c (.replay c key)
  | forgotten {key : RecordKey} (h : d.record key = none) : Refused e d c (.replay c key)
  | taken {row : Conversation H} (hrow : row ∈ d.tables.conversations)
      (h : row.id = c.candidate ∨ row.isGroup = true ∧ row.setHash = c.hash e) :
      Refused e d c (.insert c)

/-- Completing and answering do not fail. -/
theorem finish_exec (hr : (delta ws).records = c.claims e) (hf : (delta ws).forgotten = [])
    (htodo : c.finish id = stmt :: rest) : stmt.exec e ((language e).applyAll d ws) ≠ none := by
  cases hk : c.recordKey with
  | none =>
    simp only [Call.finish, hk, toList_none, map_nil, nil_append] at htodo
    obtain ⟨rfl, -⟩ := List.cons.inj htodo
    simp [Statement.exec]
  | some key =>
    simp only [Call.finish, hk, toList_some, map_cons, map_nil,
      cons_append, nil_append] at htodo
    obtain ⟨rfl, -⟩ := List.cons.inj htodo
    simp [Statement.exec, record_view hk hr hf]

/-- A call fails for no other reason; in particular the second look-up finds the conversation
that the insert ran into. -/
theorem Stage.refused (hd : Sound e strict d)
    (h : Stage e strict d.tables c locks (delta ws) (stmt :: rest))
    (ho : stmt.exec e ((language e).applyAll d ws) = none) : Refused e d c stmt := by
  generalize hδ : delta ws = δ at h
  generalize htodo : stmt :: rest = todo at h
  cases h with
  | rejected ha =>
    obtain ⟨rfl, -⟩ := List.cons.inj htodo
    exact .invalid ha
  | opening refreshes hrfr =>
    cases refreshes with
    | nil =>
      obtain ⟨rfl, -⟩ := List.cons.inj htodo
      cases hk : c.recordKey <;> rw [hk] at ho <;> simp only [Option.elim, Statement.exec] at ho
        <;> split at ho <;> cases ho
    | cons first refreshes =>
      obtain ⟨rfl, -⟩ := List.cons.inj htodo
      have hfst := hrfr stmt mem_cons_self
      cases stmt with
      | refreshOrganization | refreshActor a => cases ho
      | _ => cases hfst
  | @replaying key hk =>
    obtain ⟨rfl, -⟩ := List.cons.inj htodo
    rw [Statement.exec, record_unclaimed hδ] at ho
    split at ho
    case h_1 hn => exact .forgotten hn
    case h_2 r hr =>
      split at ho
      case isFalse hhash => exact .reused hr hhash
      case isTrue =>
        have hsome := hd.completed r (mem_of_getRow_eq_some hr).1
        rw [map_eq_none_iff.mp ho] at hsome
        cases hsome
  | selecting =>
    obtain ⟨rfl, -⟩ := List.cons.inj htodo
    simp only [Statement.exec] at ho
    split at ho <;> cases ho
  | inserting =>
    obtain ⟨rfl, -⟩ := List.cons.inj htodo
    simp only [Statement.exec] at ho
    rw [canonicalOf_view (by rw [hδ]), view_conversations, hδ, append_nil] at ho
    split at ho
    case h_1 => cases ho
    case h_2 hn =>
      split at ho
      case isFalse => cases ho
      case isTrue hany =>
        obtain ⟨row, hrow, hcase⟩ := List.any_eq_true.mp hany
        refine .taken hrow ?_
        simp only [Bool.or_eq_true, Bool.and_eq_true, decide_eq_true_eq] at hcase
        rcases hcase with hid | ⟨-, hhash⟩
        · exact .inl hid
        · refine .inr ⟨?_, hhash⟩
          -- a superseded conversation of the set would have a canonical one
          by_contra hg
          obtain ⟨root, hroot, hcan, hroothash⟩ :=
            hd.directs.exists_canonical hrow (by simpa using hg)
          exact canonicalOf_eq_none_iff.mp hn root hroot hcan (hroothash.trans hhash)
  | reselecting hrow hcan hhash =>
    obtain ⟨rfl, -⟩ := List.cons.inj htodo
    simp only [Statement.exec] at ho
    rw [canonicalOf_view (by rw [hδ]), map_eq_none_iff] at ho
    exact absurd hhash (canonicalOf_eq_none_iff.mp ho _ hrow hcan)
  | populating done rest' hsplit hf hrow =>
    cases rest' with
    | nil => exact absurd ho (finish_exec (hδ ▸ rfl) (hδ ▸ rfl) htodo.symm)
    | cons a rest' =>
      obtain ⟨rfl, -⟩ := List.cons.inj htodo
      cases ho
  | closing hm => exact absurd ho (finish_exec (hδ ▸ rfl) (hδ ▸ hm.frame.2.1) htodo.symm)
  | replayed | completed =>
    obtain ⟨rfl, -⟩ := List.cons.inj htodo
    cases ho
  | answered | repeated => cases htodo

end

end SiliconDm.Link.Canonical
