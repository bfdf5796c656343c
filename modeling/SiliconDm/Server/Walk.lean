import SiliconDm.Server.Sync

/-!
# Walks through the feed

A client that follows the cursors of the feed while anything else happens: each request reads the
head in one committed state of a run and the rows in a later one. What it received between two
positions is exactly what it may see there, read once and in order; where a row is missing it is
told to reset.
-/

namespace SiliconDm.Server

open Base List

abbrev Store : Type := Sessions Database Statement Check Write Lock Task

/-- Anything may happen between two states of the store. -/
abbrev Later (s s' : Store) : Prop :=
  (server Streams).Steps (fun _ _ => True) s s'

variable (codec : CursorCodec) (key : List UInt8) (a : ActorRef)

/-- A page that a client got, with the databases it was read from. -/
structure PageRead where
  head : Database
  rows : Database
  page : SyncPage

/-- The client starts with a cursor and follows the returned ones while there is more. -/
inductive Walk : Store → String → List PageRead → Store → String → Prop
  | stay (s : Store) (token : String) : Walk s token [] s token
  | page {s s₁ s₂ s' : Store} {token token' : String} {now : Int} {limit : Option Nat}
      {page : SyncPage} {reads : List PageRead} (hhead : Later s s₁) (hrows : Later s₁ s₂)
      (hpage : events codec key a now { cursor := some token, limit := limit, reset := false }
        s₁.committed s₂.committed = .ok page)
      (hmore : reads ≠ [] → page.hasMore = true) (hrest : Walk s₂ page.cursor reads s' token') :
      Walk s token (⟨s₁.committed, s₂.committed, page⟩ :: reads) s' token'

/-! ### One page -/

variable {codec key a} {d d' : Database} {cursor : SyncCursor} {now : Int} {limit : Option Nat}
  {p upper : Nat} {answer : SyncPage}

def nextCursor (codec : CursorCodec) (a : ActorRef) (now : Int) (cursor : SyncCursor) (upper : Int)
    (scan : SyncScan) : SyncCursor where
  version := cursorVersion
  scope := codec.scope a
  position := scan.position
  upper := if scan.hasMore then some upper else none
  expiresAt := if cursor.upper.isSome then cursor.expiresAt else now + cursorSeconds

/-- The page for a cursor of the server. -/
theorem page_eq (hc : cursor.Issued codec a) (limit : Option Nat) (n : Nat) :
    page codec key a now ⟨some (encodeCursor codec key cursor), limit, false⟩ n d d' =
      match decodeCursor codec key (encodeCursor codec key cursor) (codec.scope a) now with
      | .error e => .error e
      | .ok _ =>
        let upper := cursor.upper.getD (syncHead d a).1
        if (syncHead d a).1 < cursor.position ∨ (syncHead d a).1 < upper ∨
            cursor.position < (syncHead d a).2 then .error syncResetRequired
        else
          match syncEvents d' a cursor.position upper n with
          | .error e => .error e
          | .ok scan => .ok {
              events := scan.events
              cursor := encodeCursor codec key (nextCursor codec a now cursor upper scan)
              hasMore := scan.hasMore
              upperSequence := upper } := by
  unfold page
  cases hd : decodeCursor codec key (encodeCursor codec key cursor) (codec.scope a) now with
  | error e => simp [hd, Except.map]
  | ok found =>
    obtain rfl := decodeCursor_eq_ok hc hd
    have hdeadline : ((some found).filter (·.upper.isSome)).elim (now + cursorSeconds)
        (·.expiresAt) = if found.upper.isSome then found.expiresAt else now + cursorSeconds := by
      cases hu : found.upper.isSome <;> simp [Option.filter, hu]
    simp only [Option.elim_some, hd, Except.map, Option.bind_some, Bool.false_eq_true, if_false,
      hdeadline]
    rfl

/-- What a page from `p` on has read up to `p'`; `upper` is the end of its walk. -/
structure Scanned (d : Database) (a : ActorRef) (p upper p' : Nat) (answer : SyncPage) : Prop where
  le : p ≤ p'
  le_upper : p' ≤ upper
  holds : ∀ q, p < q → q ≤ p' → Holds d a q
  told : ∀ row ∈ d.deliveriesOf a, p < row.sequence → row.sequence ≤ p' → Told d row
  events : answer.events = (List.range' (p + 1) (p' - p)).filterMap (eventAt d a)
  upperSequence : answer.upperSequence = upper
  done : answer.hasMore = false → p' = upper
  more : answer.hasMore = true → p < p' ∧ p' < upper

/-- Above the floor no two rows share a place, also some time after the head was read. -/
theorem distinctIn_of_evolves (hd' : Streams d') (he : Evolves a d d')
    (hfloor : (syncHead d a).2 ≤ p) (hup : (upper : Int) ≤ (syncHead d a).1) :
    DistinctIn d' a p upper := by
  unfold DistinctIn
  cases hst : d.stream a with
  | none =>
    -- nothing can be in the range
    have hzero : upper = 0 := by
      have : (upper : Int) ≤ 0 := by simpa [syncHead, hst] using hup
      omega
    have : ((d'.deliveriesOf a).map (·.sequence)).filter (fun q => p < q ∧ q ≤ upper) = [] := by
      apply filter_eq_nil_iff.mpr
      intro q _
      simp only [decide_eq_true_eq]
      omega
    rw [this]
    exact nodup_nil
  | some st =>
    obtain ⟨st', hst', hsame, -⟩ := he st hst
    have hp : st'.syncFloor ≤ p := by
      have : (st.syncFloor : Int) ≤ p := by simpa [syncHead, hst] using hfloor
      omega
    have hdist := (hd'.sequenced a st' hst').distinct
    rw [Database.slots, List.map_map] at hdist
    have hsub : ((d'.deliveriesOf a).map (·.sequence)).filter (fun q => p < q ∧ q ≤ upper) =
        (((d'.deliveriesOf a).map (·.sequence)).filter (st'.syncFloor < ·)).filter
          fun q => p < q ∧ q ≤ upper := by
      rw [List.filter_filter]
      apply filter_congr
      intro q _
      by_cases hq : p < q ∧ q ≤ upper
      · have : st'.syncFloor < q := by omega
        simp [hq, this]
      · simp [hq]
    rw [hsub]
    exact hdist.filter _

/-- Where the walk of a cursor ends, once the head has been read. -/
theorem exists_upper (hc : cursor.Issued codec a) (hp : cursor.position = p)
    (hhead : (p : Int) ≤ (syncHead d a).1) :
    ∃ upper : Nat, cursor.upper.getD (syncHead d a).1 = upper ∧ p ≤ upper := by
  have hle : (p : Int) ≤ cursor.upper.getD (syncHead d a).1 := by
    cases hu : cursor.upper with
    | none => exact hhead
    | some u => exact hp ▸ hc.upper u hu
  refine ⟨(cursor.upper.getD (syncHead d a).1).toNat, ?_, ?_⟩ <;> omega

variable {p' p₁ q : Nat} {s s' : Store}

theorem nextCursor_issued {upper : Nat} {scan : SyncScan} (hpos : scan.position = p')
    (hle : p' ≤ upper) : (nextCursor codec a now cursor upper scan).Issued codec a where
  version := rfl
  scope := rfl
  position := by
    change 0 ≤ scan.position
    omega
  upper u hu := by
    change scan.position ≤ u
    unfold nextCursor at hu
    dsimp only at hu
    split at hu
    · have : (upper : Int) = u := Option.some.inj hu
      omega
    · cases hu

theorem events_eq_page (token : String) :
    events codec key a now ⟨some token, limit, false⟩ d d' =
      if 1 ≤ limit.getD 50 ∧ limit.getD 50 ≤ 100 then
        page codec key a now ⟨some token, limit, false⟩ (limit.getD 50) d d'
      else .error (.validation "limit must be between 1 and 100") := by
  unfold events
  dsimp only
  by_cases hlim : 1 ≤ limit.getD 50 ∧ limit.getD 50 ≤ 100
  · rw [if_neg (Classical.not_not.mpr hlim), if_pos hlim]
    rfl
  · rw [if_pos hlim, if_neg hlim]

/-- A page that was answered: it read every place up to the next cursor's position. -/
theorem events_eq_ok (hc : cursor.Issued codec a) (hp : cursor.position = p) (hd' : Streams d')
    (he : Evolves a d d')
    (h : events codec key a now ⟨some (encodeCursor codec key cursor), limit, false⟩ d d' =
      .ok answer) :
    ∃ upper p' next, Scanned d' a p upper p' answer ∧
      cursor.upper.getD (syncHead d a).1 = (upper : Int) ∧ (upper : Int) ≤ (syncHead d a).1 ∧
      (syncHead d a).2 ≤ p ∧ answer.cursor = encodeCursor codec key next ∧
      next.Issued codec a ∧ next.position = p' ∧
      next.upper = if answer.hasMore then some (upper : Int) else none := by
  rw [events_eq_page] at h
  split at h
  case isFalse => cases h
  case isTrue hlim =>
  rw [page_eq hc] at h
  split at h
  case h_1 => cases h
  case h_2 =>
  dsimp only at h
  rw [hp] at h
  split at h
  case isTrue => cases h
  case isFalse hbounds =>
  obtain ⟨upper, hup, hle⟩ := exists_upper hc hp (d := d) (a := a) (by omega)
  rw [hup] at h hbounds
  split at h
  next => cases h
  next scan hscan =>
  cases h
  have hdist : DistinctIn d' a p upper :=
    distinctIn_of_evolves hd' he (by omega) (by omega)
  obtain ⟨p', hpos, hle', hle'', hho, htold, hevents, hdone, hmore⟩ :=
    syncEvents_eq_ok hdist hle hlim hscan
  exact ⟨upper, p', nextCursor codec a now cursor upper scan,
    ⟨hle', hle'', hho, htold, hevents, rfl, hdone, hmore⟩, hup, by omega, by omega, rfl,
    nextCursor_issued hpos hle'', hpos, rfl⟩

/-- A request with a cursor of the server is answered with a page or told to reset, and it gets a
page if its cursor has not expired, is not below the floor and no row is missing. -/
theorem events_answered (now : Int) (limit : Option Nat) (hc : cursor.Issued codec a)
    (hp : cursor.position = p) (hd' : Streams d')
    (hfits : ∀ m ∈ d'.messages, (m.sequence : Int) ≤ Protocol.i64Max)
    (he : Evolves a d d') (hlim : 1 ≤ limit.getD 50 ∧ limit.getD 50 ≤ 100)
    (hsize : (encodeCursor codec key cursor).utf8ByteSize ≤ 2048) :
    ((∃ answer, events codec key a now ⟨some (encodeCursor codec key cursor), limit, false⟩ d d' =
        .ok answer) ∨
      events codec key a now ⟨some (encodeCursor codec key cursor), limit, false⟩ d d' =
        .error syncResetRequired) ∧
    (now < cursor.expiresAt → (p : Int) ≤ (syncHead d a).1 →
      cursor.upper.getD (syncHead d a).1 ≤ (syncHead d a).1 → (syncHead d a).2 ≤ p →
      (∀ q : Nat, p < q → (q : Int) ≤ cursor.upper.getD (syncHead d a).1 →
        ∃ row ∈ d'.deliveriesOf a, row.sequence = q) →
      ∃ answer, events codec key a now ⟨some (encodeCursor codec key cursor), limit, false⟩ d d' =
        .ok answer) := by
  rw [events_eq_page, if_pos hlim, page_eq hc, decodeCursor_encodeCursor hc hsize]
  by_cases hexp : cursor.expiresAt ≤ now
  · rw [if_pos hexp]
    exact ⟨.inr rfl, fun hnow => absurd hexp (by omega)⟩
  rw [if_neg hexp]
  dsimp only
  rw [hp]
  by_cases hbounds : (syncHead d a).1 < p ∨ (syncHead d a).1 < cursor.upper.getD (syncHead d a).1 ∨
      (p : Int) < (syncHead d a).2
  · rw [if_pos hbounds]
    exact ⟨.inr rfl, fun _ _ _ _ => by omega⟩
  rw [if_neg hbounds]
  obtain ⟨upper, hup, hle⟩ := exists_upper hc hp (d := d) (a := a) (by omega)
  rw [hup] at hbounds ⊢
  have hdist : DistinctIn d' a p upper := distinctIn_of_evolves hd' he (by omega) (by omega)
  have htold : ∀ row ∈ (sequenceRows d' a p upper).take (limit.getD 50), Told d' row := by
    intro row hr
    obtain ⟨hm, -⟩ := mem_sequenceRows.mp (mem_of_mem_take hr)
    exact told_of_streams hd' hfits (mem_filter.mp hm).1
  constructor
  · rw [syncEvents_eq htold hle hlim]
    dsimp only
    split
    next e hscan =>
      split at hscan <;> cases hscan
      exact .inr rfl
    next => exact .inl ⟨_, rfl⟩
  · intro _ _ _ _ hall
    obtain ⟨scan, hscan⟩ := exists_syncEvents htold hdist hle hlim
      fun q hq hq' => hall q hq (by omega)
    rw [hscan]
    exact ⟨_, rfl⟩

/-! ### Whole walks -/

/-- What the client received between two positions: at every place the event it may see in the
database that its page was read from, in order. -/
structure Received (a : ActorRef) (p p' : Nat) (reads : List PageRead) (source : Nat → Database) :
    Prop where
  le : p ≤ p'
  read : ∀ q, p < q → q ≤ p' → (∃ r ∈ reads, r.rows = source q) ∧ Holds (source q) a q
  told : ∀ q, p < q → q ≤ p' → ∀ row ∈ (source q).deliveriesOf a, row.sequence = q →
    Told (source q) row
  events : reads.flatMap (·.page.events) =
    (List.range' (p + 1) (p' - p)).filterMap fun q => eventAt (source q) a q

variable {reads : List PageRead} {source : Nat → Database} {token : String}

theorem Received.cons {r : PageRead} (hr : Scanned r.rows a p upper p₁ r.page)
    (h : Received a p₁ p' reads source) :
    Received a p p' (r :: reads) fun q => if q ≤ p₁ then r.rows else source q where
  le := Nat.le_trans hr.le h.le
  read q hq hq' := by
    by_cases hq₁ : q ≤ p₁
    · simp only [hq₁, if_true]
      exact ⟨⟨r, mem_cons_self, rfl⟩, hr.holds q hq hq₁⟩
    · simp only [hq₁, if_false]
      obtain ⟨⟨r', hr', he⟩, hho⟩ := h.read q (by omega) hq'
      exact ⟨⟨r', mem_cons_of_mem _ hr', he⟩, hho⟩
  told q hq hq' row hrow hseq := by
    by_cases hq₁ : q ≤ p₁
    · simp only [hq₁, if_true] at hrow ⊢
      exact hr.told row hrow (by omega) (by omega)
    · simp only [hq₁, if_false] at hrow ⊢
      exact h.told q (by omega) hq' row hrow hseq
  events := by
    have hsplit : List.range' (p + 1) (p' - p) =
        List.range' (p + 1) (p₁ - p) ++ List.range' (p₁ + 1) (p' - p₁) := by
      have h₁ := hr.le
      have h₂ := h.le
      rw [show p₁ + 1 = p + 1 + (p₁ - p) by omega, range'_append_1]
      congr 1
      omega
    rw [flatMap_cons, hsplit, filterMap_append, hr.events, h.events]
    congr 1
    · apply filterMap_congr
      intro q hq
      rw [mem_range'_1] at hq
      rw [if_pos (by omega)]
    · apply filterMap_congr
      intro q hq
      rw [mem_range'_1] at hq
      rw [if_neg (by omega)]

/-- The event of a place refers to the row there. -/
theorem eventAt_eq_some {event : SyncEvent} (h : eventAt d a q = some event) :
    ∃ row ∈ d.deliveriesOf a, row.sequence = q ∧ Readable d row ∧ Refers d row event := by
  obtain ⟨row, hr, he⟩ := Option.bind_eq_some_iff.mp h
  refine ⟨row, mem_of_find?_eq_some hr, by simpa using find?_some hr, ?_⟩
  unfold eventOf at he
  split at he
  case isFalse => cases he
  case isTrue hauth =>
    cases hs : syncEvent d row with
    | error e =>
      rw [hs] at he
      cases he
    | ok event' =>
      rw [hs] at he
      cases he
      exact ⟨authorized_iff.mp hauth, refers_of_syncEvent hauth hs⟩

theorem eventAt_sequence {event : SyncEvent} (h : eventAt d a q = some event) :
    event.sequence = q := by
  obtain ⟨row, -, hseq, -, href⟩ := eventAt_eq_some h
  exact href.sequence.trans hseq

/-- Every event that was received refers to a row that the account might read. -/
theorem Received.sound (h : Received a p p' reads source) {event : SyncEvent}
    (he : event ∈ reads.flatMap (·.page.events)) :
    p < event.sequence ∧ event.sequence ≤ p' ∧
      ∃ row ∈ (source event.sequence).deliveriesOf a, row.sequence = event.sequence ∧
        Readable (source event.sequence) row ∧ Refers (source event.sequence) row event := by
  rw [h.events, mem_filterMap] at he
  obtain ⟨q, hq, he⟩ := he
  rw [mem_range'_1] at hq
  obtain rfl := eventAt_sequence he
  exact ⟨by omega, by omega, eventAt_eq_some he⟩

/-- Of every row of the range that the account might read it received the event. -/
theorem Received.complete (h : Received a p p' reads source) (hq : p < q) (hq' : q ≤ p')
    {row : Delivery} (hr : row ∈ (source q).deliveriesOf a) (hseq : row.sequence = q)
    (hread : Readable (source q) row) :
    ∃ event ∈ reads.flatMap (·.page.events), Refers (source q) row event := by
  have hauth := authorized_iff.mpr hread
  obtain ⟨event, he⟩ := h.told q hq hq' row hr hseq hauth
  refine ⟨event, ?_, refers_of_syncEvent hauth he⟩
  obtain ⟨-, only, -, -, hunique⟩ := h.read q hq hq'
  rw [h.events, mem_filterMap]
  refine ⟨q, mem_range'_1.mpr (by omega), ?_⟩
  unfold eventAt
  cases hfind : ((source q).deliveriesOf a).find? (·.sequence = q) with
  | none =>
    have := find?_eq_none.mp hfind row hr
    simp [hseq] at this
  | some row' =>
    have hseq' : row'.sequence = q := by simpa using find?_some hfind
    obtain rfl : row' = row :=
      (hunique row' (mem_of_find?_eq_some hfind) hseq').trans (hunique row hr hseq).symm
    rw [Option.bind_some, eventOf, if_pos hauth, he]
    rfl

/-- Each event comes once, in increasing order. -/
theorem Received.pairwise (h : Received a p p' reads source) :
    ((reads.flatMap (·.page.events)).map (·.sequence)).Pairwise (· < ·) := by
  rw [h.events, pairwise_map, pairwise_filterMap]
  refine (pairwise_lt_range' (s := p + 1) (n := p' - p)).imp ?_
  intro q q' hlt event he event' he'
  rw [eventAt_sequence he, eventAt_sequence he']
  exact hlt

/-- A place below the head is not filled later. -/
theorem slot_of_evolves (he : Evolves a d d') (hpos : 0 < q) (hq : (q : Int) ≤ (syncHead d a).1)
    {row : Delivery} (hr : row ∈ d'.deliveriesOf a) (hseq : row.sequence = q) :
    row.slot ∈ d.slots a := by
  cases hst : d.stream a with
  | none =>
    simp only [syncHead, hst] at hq
    omega
  | some st =>
    obtain ⟨st', -, -, -, hold⟩ := he st hst
    refine hold _ (List.mem_map_of_mem hr) ?_
    simp only [syncHead, hst] at hq
    simp only [Delivery.slot]
    omega

theorem head_le_of_evolves (he : Evolves a d d') (hpos : 0 < (syncHead d a).1) :
    (syncHead d a).1 ≤ (syncHead d' a).1 := by
  cases hst : d.stream a with
  | none => simp [syncHead, hst] at hpos
  | some st =>
    obtain ⟨st', hst', -, hle, -⟩ := he st hst
    simp only [syncHead, hst, hst']
    omega

theorem Walk.later {token' : String} (h : Walk codec key a s token reads s' token') :
    Later s s' := by
  induction h with
  | stay => exact .refl
  | page hhead hrs _ _ _ ih => exact (hhead.trans hrs).trans ih

/-- The result of a walk from position `p` to `p'`. -/
structure WalkResult (codec : CursorCodec) (key : List UInt8) (a : ActorRef) (s s' : Store)
    (cursor : SyncCursor) (token : String) (reads : List PageRead) (p p' : Nat)
    (source : Nat → Database) : Prop where
  received : Received a p p' reads source
  next : ∃ next : SyncCursor, token = encodeCursor codec key next ∧ next.Issued codec a ∧
    next.position = p'
  /-- The end of the walk is fixed by its first page. -/
  fixed : ∀ first, reads.head? = some first → ∀ r ∈ reads,
    r.page.upperSequence = cursor.upper.getD (syncHead first.head a).1
  done : ∀ last, reads.getLast? = some last → last.page.hasMore = false →
    (p' : Int) = last.page.upperSequence
  progress : reads.length ≤ p' - p + 1
  /-- Nothing is filled in behind the client. -/
  settled : ∀ q, p < q → q ≤ p' → ∀ s'', Later s' s'' → ∀ row ∈ s''.committed.deliveriesOf a,
    row.sequence = q → row.slot ∈ (source q).slots a
  /-- What was missing when the walk began is not passed. -/
  present : ∀ q, p < q → q ≤ p' → (q : Int) ≤ (syncHead s.committed a).1 →
    ∃ row ∈ s.committed.deliveriesOf a, row.sequence = q

theorem WalkResult.stay (s : Store) (hc : cursor.Issued codec a) (hp : cursor.position = p) :
    WalkResult codec key a s s cursor (encodeCursor codec key cursor) [] p p
      (fun _ => s.committed) where
  received := ⟨Nat.le_refl _, fun q hq hq' => absurd hq' (by omega),
    fun q hq hq' => absurd hq' (by omega), by simp⟩
  next := ⟨cursor, rfl, hc, hp⟩
  fixed := by simp
  done := by simp
  progress := Nat.zero_le _
  settled q hq hq' := absurd hq' (by omega)
  present q hq hq' := absurd hq' (by omega)

/-- One more page in front of a walk. -/
theorem WalkResult.page {s₁ s₂ : Store} {next : SyncCursor}
    (hr : Scanned s₂.committed a p upper p₁ answer)
    (hupper : cursor.upper.getD (syncHead s₁.committed a).1 = (upper : Int))
    (hhead : (upper : Int) ≤ (syncHead s₁.committed a).1)
    (hnext : next.upper = if answer.hasMore then some (upper : Int) else none)
    (hmore : reads ≠ [] → answer.hasMore = true) (he : Evolves a s.committed s₂.committed)
    (he₂ : Evolves a s₁.committed s₂.committed)
    (hlat : ∀ s'', Later s' s'' → Evolves a s₂.committed s''.committed)
    (h : WalkResult codec key a s₂ s' next token reads p₁ p' source) :
    WalkResult codec key a s s' cursor token (⟨s₁.committed, s₂.committed, answer⟩ :: reads) p p'
      (fun q => if q ≤ p₁ then s₂.committed else source q) where
  received := h.received.cons hr
  next := h.next
  fixed := by
    intro first hfst r hm
    cases hfst
    dsimp only
    rw [hupper]
    rcases mem_cons.mp hm with rfl | hm
    · exact hr.upperSequence
    · obtain ⟨first', hfst'⟩ : ∃ first', reads.head? = some first' := by
        cases reads with
        | nil => cases hm
        | cons r' _ => exact ⟨r', rfl⟩
      rw [h.fixed first' hfst' r hm, hnext, hmore (ne_nil_of_mem hm)]
      rfl
  done := by
    intro last hlast hno
    cases reads with
    | nil =>
      rw [getLast?_singleton] at hlast
      cases hlast
      -- the walk ends with this page
      have hstop : p' = p₁ := by
        have hle := h.received.le
        by_contra hne
        obtain ⟨⟨r, hr, -⟩, -⟩ := h.received.read (p₁ + 1) (by omega) (by omega)
        cases hr
      have hend := hr.done hno
      have hup := hr.upperSequence
      change (p' : Int) = answer.upperSequence
      omega
    | cons r' reads => exact h.done last (by simpa [getLast?_cons_cons] using hlast) hno
  progress := by
    have hle := h.received.le
    have hle₁ := hr.le
    have hlen := h.progress
    rw [length_cons]
    cases hreads : reads with
    | nil => simp
    | cons r' reads' =>
      have := (hr.more (hmore (by simp [hreads]))).1
      rw [hreads] at hlen
      omega
  settled := by
    intro q hq hq' s'' hs'' row hrow hseq
    by_cases hq₁ : q ≤ p₁
    · simp only [hq₁, if_true]
      have hle := hr.le_upper
      have hhead₂ := head_le_of_evolves he₂ (by omega)
      exact slot_of_evolves (hlat s'' hs'') (by omega) (by omega) hrow hseq
    · simp only [hq₁, if_false]
      exact h.settled q (by omega) hq' s'' hs'' row hrow hseq
  present := by
    intro q hq hq' hhead'
    have hrow : ∃ row ∈ s₂.committed.deliveriesOf a, row.sequence = q := by
      by_cases hq₁ : q ≤ p₁
      · obtain ⟨row, hrow, hseq, -⟩ := hr.holds q hq hq₁
        exact ⟨row, hrow, hseq⟩
      · have := head_le_of_evolves he (by omega)
        exact h.present q (by omega) hq' (by omega)
    obtain ⟨row, hrow, hseq⟩ := hrow
    have hslot := slot_of_evolves he (by omega) hhead' hrow hseq
    obtain ⟨row', hrow', hs'⟩ := List.mem_map.mp hslot
    exact ⟨row', hrow', (congrArg Prod.snd hs').trans hseq⟩

/-- The walk rule: by induction on the pages. -/
theorem Walk.result (h : Walk codec key a s (encodeCursor codec key cursor) reads s' token)
    (hr : (server Streams).Reachable s) (hc : cursor.Issued codec a) (hp : cursor.position = p) :
    ∃ p' source, WalkResult codec key a s s' cursor token reads p p' source := by
  generalize hsta : encodeCursor codec key cursor = start at h
  induction h generalizing cursor p with
  | stay s token =>
    subst hsta
    exact ⟨p, _, .stay s hc hp⟩
  | @page s s₁ s₂ s' start token now limit answer reads hhead hrs hpage hmore hrest ih =>
    subst hsta
    have hr₁ : (server Streams).Reachable s₁ := hr.steps hhead
    have hr₂ : (server Streams).Reachable s₂ := hr₁.steps hrs
    have hd₂ : Streams s₂.committed := (feeding.reachable (fun _ hd => hd) hr₂).committed
    have he₂ : Evolves a s₁.committed s₂.committed := evolves_of_steps hr₁ hrs
    obtain ⟨upper, p₁, next, hscan, hup, hle, -, hcursor, hiss, hpos, hnext⟩ :=
      events_eq_ok hc hp hd₂ he₂ hpage
    obtain ⟨p', source, hres⟩ := ih hr₂ hiss hpos hcursor.symm
    refine ⟨p', _, .page hscan hup hle hnext hmore (evolves_of_steps hr (hhead.trans hrs))
      he₂ (fun s'' hs'' => ?_) hres⟩
    exact evolves_of_steps hr₂ (hrest.later.trans hs'')

/-- The feed is complete: whatever else is committed meanwhile, a walk receives exactly the
references above its cursor that the account may read, each once and in order, and ends at the
head that its first page fixed; and every request is answered with a page or told to reset, the
latter only if the cursor has expired or is out of range or a row is missing, and no page passes
a missing row. -/
theorem sync_feed_complete (codec : CursorCodec) (key : List UInt8) {a : ActorRef} {s : Store}
    (h : (server Streams).Reachable s) {cursor : SyncCursor} (hc : cursor.Issued codec a)
    {p : Nat} (hp : cursor.position = p) :
    (∀ reads s' token, Walk codec key a s (encodeCursor codec key cursor) reads s' token →
      ∃ p' source, WalkResult codec key a s s' cursor token reads p p' source ∧
        ((reads.flatMap (·.page.events)).map (·.sequence)).Pairwise (· < ·) ∧
        (∀ event ∈ reads.flatMap (·.page.events), p < event.sequence ∧ event.sequence ≤ p' ∧
          ∃ row ∈ (source event.sequence).deliveriesOf a, row.sequence = event.sequence ∧
            Readable (source event.sequence) row ∧ Refers (source event.sequence) row event) ∧
        ∀ q, p < q → q ≤ p' → ∀ row ∈ (source q).deliveriesOf a, row.sequence = q →
          Readable (source q) row →
          ∃ event ∈ reads.flatMap (·.page.events), Refers (source q) row event) ∧
    ∀ now limit s₁ s₂, Later s s₁ → Later s₁ s₂ → 1 ≤ limit ∧ limit ≤ 100 →
      (∀ m ∈ s₂.committed.messages, (m.sequence : Int) ≤ Protocol.i64Max) →
      (encodeCursor codec key cursor).utf8ByteSize ≤ 2048 →
      let answer := events codec key a now ⟨some (encodeCursor codec key cursor), some limit, false⟩
        s₁.committed s₂.committed
      let head := (syncHead s₁.committed a).1
      let floor := (syncHead s₁.committed a).2
      let upper := cursor.upper.getD head
      ((∃ page, answer = .ok page) ∨ answer = .error syncResetRequired) ∧
      (now < cursor.expiresAt → p ≤ head → upper ≤ head → floor ≤ p →
        (∀ q : Nat, p < q → q ≤ upper → ∃ row ∈ s₂.committed.deliveriesOf a, row.sequence = q) →
        ∃ page, answer = .ok page) ∧
      ∀ page, answer = .ok page → ∀ q : Nat, p < q → q ≤ upper →
        (¬ ∃ row ∈ s₂.committed.deliveriesOf a, row.sequence = q) →
        page.hasMore = true ∧ ∃ next : SyncCursor, page.cursor = encodeCursor codec key next ∧
          next.position < q := by
  constructor
  · intro reads s' token hwalk
    obtain ⟨p', source, hresult⟩ := hwalk.result h hc hp
    exact ⟨p', source, hresult, hresult.received.pairwise, fun _ => hresult.received.sound,
      fun _ hq hq' _ => hresult.received.complete hq hq'⟩
  · intro now limit s₁ s₂ hhead hrows hlimit hfits hsize
    have h₁ : (server Streams).Reachable s₁ := h.steps hhead
    have h₂ : (server Streams).Reachable s₂ := h₁.steps hrows
    have hd₂ : Streams s₂.committed := (feeding.reachable (fun _ hd => hd) h₂).committed
    have he₂ : Evolves a s₁.committed s₂.committed := evolves_of_steps h₁ hrows
    obtain ⟨hor, hall⟩ := events_answered now (some limit) hc hp hd₂ hfits he₂ hlimit hsize
    refine ⟨hor, hall, fun page hpage q hq hq' hmissing => ?_⟩
    obtain ⟨upper, p', next, hscan, hupper, -, -, hcursor, -, hpos, -⟩ :=
      events_eq_ok hc hp hd₂ he₂ hpage
    have hbefore : p' < q := by
      by_contra hnot
      obtain ⟨row, hrow, hseq, -⟩ := hscan.holds q hq (by omega)
      exact hmissing ⟨row, hrow, hseq⟩
    refine ⟨?_, next, hcursor, by omega⟩
    cases hmore : page.hasMore with
    | true => rfl
    | false =>
      have hend := hscan.done hmore
      rw [hupper] at hq'
      omega

/-! ### A wire format -/

/-- Numbers in unary, ended by a zero. -/
def putNat (n : Nat) : List UInt8 :=
  List.replicate n 1 ++ [0]

def getNat : List UInt8 → Nat × List UInt8
  | [] => (0, [])
  | b :: bs => if b = 0 then (0, bs) else ((getNat bs).1 + 1, (getNat bs).2)

theorem getNat_putNat (n : Nat) (rest : List UInt8) : getNat (putNat n ++ rest) = (n, rest) := by
  induction n with
  | zero => rfl
  | succ n ih =>
    have hcons : putNat (n + 1) ++ rest = 1 :: (putNat n ++ rest) := rfl
    rw [hcons, getNat, ih]
    rfl

def putInt : Int → List UInt8
  | .ofNat n => putNat 0 ++ putNat n
  | .negSucc n => putNat 1 ++ putNat n

def getInt (bs : List UInt8) : Int × List UInt8 :=
  let (sign, bs) := getNat bs
  let (n, bs) := getNat bs
  (if sign = 0 then .ofNat n else .negSucc n, bs)

theorem getInt_putInt (z : Int) (rest : List UInt8) : getInt (putInt z ++ rest) = (z, rest) := by
  cases z <;> simp [getInt, putInt, append_assoc, getNat_putNat]

def putChars (cs : List Char) : List UInt8 :=
  putNat cs.length ++ cs.flatMap fun c => putNat c.toNat

def getChars : Nat → List UInt8 → List Char × List UInt8
  | 0, bs => ([], bs)
  | n + 1, bs =>
    let (c, bs) := getNat bs
    let (cs, bs) := getChars n bs
    (Char.ofNat c :: cs, bs)

theorem getChars_flatMap (cs : List Char) (rest : List UInt8) :
    getChars cs.length ((cs.flatMap fun c => putNat c.toNat) ++ rest) = (cs, rest) := by
  induction cs with
  | nil => rfl
  | cons c cs ih =>
    simp only [length_cons, flatMap_cons, append_assoc, getChars, getNat_putNat, ih,
      Char.ofNat_toNat]

def putCursor (c : SyncCursor) : List UInt8 :=
  putNat c.version ++ (putChars c.scope.toList ++ (putInt c.position ++
    (putNat (if c.upper.isSome then 1 else 0) ++ (putInt (c.upper.getD 0) ++ putInt c.expiresAt))))

def getCursor (bs : List UInt8) : Option SyncCursor :=
  let (version, bs) := getNat bs
  let (length, bs) := getNat bs
  let (scope, bs) := getChars length bs
  let (position, bs) := getInt bs
  let (bounded, bs) := getNat bs
  let (upper, bs) := getInt bs
  let (expiresAt, _) := getInt bs
  some {
    version := version
    scope := String.ofList scope
    position := position
    upper := if bounded = 1 then some upper else none
    expiresAt := expiresAt }

theorem getCursor_putCursor (c : SyncCursor) : getCursor (putCursor c) = some c := by
  obtain ⟨version, scope, position, upper, expiresAt⟩ := c
  have hend : getInt (putInt expiresAt) = (expiresAt, []) := by
    simpa using getInt_putInt expiresAt []
  cases upper <;>
    simp [getCursor, putCursor, putChars, append_assoc, getNat_putNat, getInt_putInt,
      getChars_flatMap, hend]

/-- The bytes as characters from `'0'` on. -/
def putText (bs : List UInt8) : String :=
  String.ofList (bs.map fun b => Char.ofNat (b.toNat + 48))

def getText (text : String) : List UInt8 :=
  text.toList.map fun c => UInt8.ofNat (c.toNat - 48)

theorem toNat_textChar (b : UInt8) : (Char.ofNat (b.toNat + 48)).toNat = b.toNat + 48 := by
  have hlt := b.toNat_lt
  have hval : (b.toNat + 48).isValidChar := .inl (by omega)
  rw [Char.ofNat, dif_pos hval]
  rfl

/-- One format with the laws of the libraries: unary numbers, and no hash to speak of. -/
def unaryCodec : CursorCodec where
  toVec := putCursor
  fromSlice := getCursor
  encode := putText
  decode text := some (getText text)
  keyedHash key body := key ++ [UInt8.ofNat body.length]
  scope a := a.id
  fromSlice_toVec := getCursor_putCursor
  decode_encode bytes := by
    simp [getText, putText, Function.comp_def, toNat_textChar]
  dot_notMem_encode bytes := by
    simp only [putText, String.toList_ofList, List.mem_map, not_exists, not_and]
    intro b _ he
    have := congrArg Char.toNat he
    rw [toNat_textChar] at this
    have hdot : ('.' : Char).toNat = 46 := rfl
    omega

/-- A cursor at the start of `bot`'s stream. -/
def botCursor : SyncCursor where
  version := 2
  scope := "bot"
  position := 0
  upper := none
  expiresAt := 1

theorem streams_directDatabase : Streams directDatabase where
  outbox := outbox_directDatabase
  known := nofun
  sequenced := nofun
  messages := nofun
  conversations := by decide

/-- After `ada` has sent a message, `bot` walks to the head and is told of message `000` of
conversation 1. -/
theorem sync_feed_complete_one_message :
    ∃ s reads s' token p' source, (server Streams).Reachable s ∧
      Walk unaryCodec [] ⟨.silicon, "bot"⟩ s (encodeCursor unaryCodec [] botCursor) reads s' token ∧
      WalkResult unaryCodec [] ⟨.silicon, "bot"⟩ s s' botCursor token reads 0 p' source ∧
      ⟨1, "message", 1, "000"⟩ ∈ reads.flatMap (·.page.events) := by
  have hinit : (server Streams).init (Sessions.boot directDatabase) :=
    ⟨_, streams_directDatabase, rfl⟩
  obtain ⟨s, hs, hhead, hfits, hmessage, row, hrow, hseq, hconv, hpart, recipient, href⟩ :
      ∃ s, (server Streams).Reachable s ∧ syncHead s.committed ⟨.silicon, "bot"⟩ = (1, 0) ∧
        (∀ m ∈ s.committed.messages, (m.sequence : Int) ≤ Protocol.i64Max) ∧
        (s.committed.message 7).map (·.sequence) = some 1 ∧
        ∃ row ∈ s.committed.deliveriesOf ⟨.silicon, "bot"⟩, row.sequence = 1 ∧
          row.conversation = some 1 ∧ row.target ∈ s.committed.effectiveParticipants 1 ∧
          ∃ recipient, row.ref = .message 7 recipient :=
    ⟨_, System.reachable_get
      (.start (.sendMessage 7 1 ⟨.carbon, "ada"⟩) :: List.replicate 9 (.exec 0) ++ [.commit 0])
      hinit (by decide), by decide, by decide, by decide, _, mem_cons_self, by decide, by decide,
      by decide, _, rfl⟩
  have hissued : botCursor.Issued unaryCodec ⟨.silicon, "bot"⟩ := ⟨rfl, rfl, by decide, nofun⟩
  have hfeed := sync_feed_complete unaryCodec [] hs hissued rfl (p := 0)
  have hall : ∀ q : Nat, 0 < q → (q : Int) ≤ 1 →
      ∃ row ∈ s.committed.deliveriesOf ⟨.silicon, "bot"⟩, row.sequence = q := by
    intro q hq hq'
    exact ⟨row, hrow, by omega⟩
  have hsize : (encodeCursor unaryCodec [] botCursor).utf8ByteSize ≤ 2048 := by decide +kernel
  obtain ⟨page, hpage⟩ := (hfeed.2 0 50 s s .refl .refl (by decide) hfits hsize).2.1 (by decide)
    (by rw [hhead]; decide) (by rw [hhead]; decide) (by rw [hhead]; decide)
    (by rw [hhead]; exact hall)
  have hwalk : Walk unaryCodec [] ⟨.silicon, "bot"⟩ s (encodeCursor unaryCodec [] botCursor)
      [⟨s.committed, s.committed, page⟩] s page.cursor :=
    .page .refl .refl hpage (by simp) (.stay s page.cursor)
  obtain ⟨p', source, hresult, -, -, hcomplete⟩ := hfeed.1 _ _ _ hwalk
  refine ⟨s, _, s, _, p', source, hs, hwalk, hresult, ?_⟩
  have hend : p' = 1 := by
    have hd : Streams s.committed := (feeding.reachable (fun _ hd => hd) hs).committed
    obtain ⟨upper, p₁, -, hscan, hupper, -⟩ :=
      events_eq_ok hissued rfl hd (evolves_of_steps hs .refl) hpage
    rw [show botCursor.upper = none from rfl, Option.getD_none, hhead] at hupper
    -- no page ends strictly between 0 and the head
    have hno : page.hasMore = false := by
      by_contra hmore
      have := hscan.more (by simpa using hmore)
      omega
    have hdone : (p' : Int) = page.upperSequence := hresult.done _ rfl hno
    rw [hscan.upperSequence, ← hupper] at hdone
    exact Int.ofNat.inj hdone
  obtain ⟨⟨r, hr, hsource⟩, -⟩ := hresult.received.read 1 (by decide) (by omega)
  rw [mem_singleton.mp hr] at hsource
  obtain ⟨event, hmem, hrefers⟩ := hcomplete 1 (by decide) (by omega) row (hsource ▸ hrow) hseq
    (hsource ▸ ⟨⟨7, .inl ⟨recipient, href⟩⟩, 1, hconv, hpart⟩)
  rw [← hsource] at hrefers
  obtain ⟨hsequence, hconversation, m, message, hm, hcode, hkind⟩ := hrefers
  obtain ⟨_, hkind⟩ : m = 7 ∧ event.kind = "message" := by simpa [href, eq_comm] using hkind
  subst m
  rw [hm, Option.map_some, Option.some.injEq] at hmessage
  rw [hmessage, show Protocol.messageCode ((1 : Nat) : Int) = some "000" by decide +kernel] at hcode
  have hevent : event = ⟨1, "message", 1, "000"⟩ := by
    cases event
    simp_all
  exact hevent ▸ hmem

end SiliconDm.Server
