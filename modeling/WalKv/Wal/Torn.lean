import WalKv.Wal.Representation
import WalKv.Wal.FailedAppend
import WalKv.Wal.Readback
import WalKv.Wal.Unflushed

/-! What part of a frame behind the last record does to a log, and truncations that may fail. -/
namespace WalKv
open Framing (stream)

namespace Dir
variable {dir dir' : Dir} {base : Nat}

theorem existing_inv {file : File} (ran : existing base dir = (.ok file, dir')) :
    dir.find base = some file ∧ dir'.files = dir.files := by
  obtain ⟨⟨⟩, dir₁, attempted, rest⟩ := Fallible.of_bind_ok ran
  have files : dir₁.files = dir.files := by
    have only := attempt_only dir
    rw [attempted] at only
    rw [show dir₁ = _ from only]
  rw [Fallible.bind_run, Fallible.get_run] at rest
  dsimp only at rest
  rcases found : dir₁.find base with _ | file' <;> rw [found] at rest
  · cases rest
  · cases rest
    exact ⟨(congrArg (List.lookup base) files).symm.trans found, files⟩

end Dir

theorem Segment.iter_inv [Checksum] {seg : Segment} {dir dir' : Dir}
    {items : List (Except Error Bytes)} (ran : seg.iter dir = (.ok items, dir')) :
    ∃ file, dir.find seg.baseIndex = some file ∧
      items = Segment.items (file.content.length + 1) ⟨file.content, []⟩ ∧
      dir'.files = dir.files := by
  obtain ⟨reader, dir₁, opened, rest⟩ := Fallible.of_bind_ok ran
  obtain ⟨file, dir₂, there, given⟩ := Fallible.of_bind_ok opened
  obtain ⟨found, files⟩ := Dir.existing_inv there
  cases given
  cases rest
  exact ⟨file, found, rfl, files⟩

namespace Log
variable [Checksum] {log log' : Log} {lead : List Chunk} {active : Chunk} {part : Bytes}
  {keepLast : Nat}

theorem Ragged.spelled {whole : Log} (ragged : whole.Ragged active part log)
    (stacked : whole.Stacked lead active) : ∃ (file : File) (buffer : Bytes),
      log.segments = lead.map Chunk.segment ++ [{ active.segment with buffer }] ∧
      log.dir.files = lead.map Chunk.entry ++ [(active.base, file)] ∧
      (log.dir.files.map Prod.fst).Nodup ∧
      file.content ++ buffer = stream frame active.records ++ part := by
  obtain ⟨file, buffer, outcomes, content, _, rfl⟩ := ragged
  have segments : whole.segments.dropLast = lead.map Chunk.segment := by
    rw [stacked.segments, List.map_append]
    exact List.dropLast_concat
  have files : Keyed.put active.base file whole.dir.files =
      lead.map Chunk.entry ++ [(active.base, file)] := by
    rw [stacked.files, List.map_append]
    exact Keyed.put_middle stacked.absent
  refine ⟨file, buffer, congrArg (· ++ _) segments, files, ?_, content⟩
  have distinct := stacked.distinct
  rwa [← Keyed.put_keys active.base file] at distinct

theorem Ragged.healed {whole : Log} (ragged : whole.Ragged active part log) :
    whole.Ragged active part log.healed := by
  obtain ⟨file, buffer, outcomes, content, durable, rfl⟩ := ragged
  exact ⟨file, buffer, [], content, durable, rfl⟩

omit [Checksum] in
theorem syncSegments_concat {dir dir' : Dir} {front segs' : List Segment} {seg : Segment}
    (synced : syncSegments (front ++ [seg]) dir = (.ok (), dir', segs')) :
    ∃ dir₁ front' seg', syncSegments front dir = (.ok (), dir₁, front') ∧
      Segment.sync (dir₁, seg) = (.ok (), dir', seg') ∧ segs' = front' ++ [seg'] := by
  induction front generalizing dir segs' with
  | nil =>
    rw [List.nil_append, syncSegments] at synced
    rcases ran : Segment.sync (dir, seg) with ⟨stop | ⟨⟩, dir₁, seg'⟩ <;> rw [ran] at synced
    · cases synced
    · cases synced
      exact ⟨dir, [], seg', rfl, ran, rfl⟩
  | cons first front ih =>
    rw [List.cons_append, syncSegments] at synced
    rcases ran : Segment.sync (dir, first) with ⟨stop | ⟨⟩, dir₁, first'⟩ <;> rw [ran] at synced
    · cases synced
    · rcases rest : syncSegments (front ++ [seg]) dir₁ with ⟨ended, dir₂, segs₂⟩
      simp only [rest] at synced
      cases synced
      obtain ⟨dir₂, front', seg', before, here, rfl⟩ := ih rest
      refine ⟨dir₂, first' :: front', seg', ?_, here, rfl⟩
      rw [syncSegments, ran]
      simp only [before]

/-- A sync moves what is left over into the file. -/
theorem Ragged.sync_ok {whole : Log} (ragged : whole.Ragged active part log)
    (stacked : whole.Stacked lead active) (synced : Log.sync log = (.ok (), log')) :
    ∃ lead' last file, SameRecords lead lead' ∧ (∀ c ∈ lead', c.Synced) ∧
      log'.segments = lead'.map Chunk.segment ++ [last] ∧ last.baseIndex = active.base ∧
      log'.dir.files = lead'.map Chunk.entry ++ [(active.base, file)] ∧
      (log'.dir.files.map Prod.fst).Nodup ∧
      file.content = stream frame active.records ++ part := by
  obtain ⟨file, buffer, segments, files, distinct, content⟩ := ragged.spelled stacked
  rcases ran : syncSegments log.segments log.dir with ⟨ended, dir', segs'⟩
  rw [Log.sync, ran] at synced
  cases synced
  rw [segments] at ran
  obtain ⟨dir₁, front', last, before, here, rfl⟩ := syncSegments_concat ran
  have files' : log.dir.files = [] ++ (lead.map Chunk.entry ++ [(active.base, file)]) := files
  obtain ⟨lead', ended, outcomes, same, ran', durable, _⟩ := syncSegments_cases files' distinct
  obtain ⟨rfl, moved⟩ := Prod.mk.inj (before.symm.trans ran')
  obtain ⟨rfl, rfl⟩ := Prod.mk.inj moved
  have bases : (lead'.map Chunk.entry).map Prod.fst = (lead.map Chunk.entry).map Prod.fst := by
    rw [List.map_map, List.map_map]
    exact same.bases
  have absent : active.base ∉ (lead'.map Chunk.entry).map Prod.fst := by
    rw [bases]
    exact Dir.absent_before files distinct
  have carries : Segment.Carries { log.dir with
      files := [] ++ (lead'.map Chunk.entry ++ [(active.base, file)]), outcomes }
      { active.segment with buffer } (stream frame active.records ++ part) :=
    ⟨file, Keyed.lookup_middle absent, content⟩
  obtain ⟨rfl, file', _, content', moved⟩ := carries.sync_ok here
  rw [List.nil_append] at moved
  have put := moved.trans (Keyed.put_middle absent)
  refine ⟨lead', _, file', same, durable rfl, rfl, rfl, put, ?_, content'⟩
  have names := congrArg (List.map Prod.fst) put
  rw [names, List.map_append, bases]
  rw [files, List.map_append] at distinct
  exact distinct

/-- Reading segments: each file is a stream of records, and these are returned. -/
theorem readSegments_inv {dir dir' : Dir} {segs : List Segment} {records : List (Nat × Bytes)}
    (read : readSegments segs dir = (.ok records, dir')) :
    (∀ seg ∈ segs, ∃ file own, dir.find seg.baseIndex = some file ∧
        file.content = stream frame own ∧ Fits own ∧ number seg.baseIndex own ⊆ records) ∧
      ∀ record ∈ records, ∃ seg ∈ segs, ∃ file own, dir.find seg.baseIndex = some file ∧
        file.content = stream frame own ∧ Fits own ∧ record ∈ number seg.baseIndex own := by
  induction segs generalizing dir dir' records with
  | nil =>
    cases read
    exact ⟨List.forall_mem_nil _, List.forall_mem_nil _⟩
  | cons seg segs ih =>
    obtain ⟨items, dir₁, iterated, rest⟩ := Fallible.of_bind_ok read
    obtain ⟨numbered, dir₂, lifted, rest⟩ := Fallible.of_bind_ok rest
    obtain ⟨later, dir₃, others, ended⟩ := Fallible.of_bind_ok rest
    obtain ⟨file, found, rfl, files⟩ := Segment.iter_inv iterated
    obtain ⟨here, rfl⟩ := Prod.mk.inj lifted
    obtain ⟨own, all, rfl⟩ := numbered_inv (Except.of_mapError_ok here)
    obtain ⟨content, fits⟩ := (Segment.items_exact_iff (Nat.lt_succ_self _)).mp all
    have same : ∀ base, dir₁.find base = dir.find base := fun base =>
      congrArg (List.lookup base) files
    obtain ⟨each, only⟩ := ih others
    simp only [same] at each only
    cases ended
    constructor
    · refine List.forall_mem_cons.mpr ⟨⟨file, own, found, content, fits, ?_⟩, fun seg' member => ?_⟩
      · exact List.subset_append_left _ _
      · obtain ⟨file', own', found', content', fits', inside⟩ := each seg' member
        exact ⟨file', own', found', content', fits', List.subset_append_of_subset_right _ inside⟩
    · intro record member
      rcases List.mem_append.mp member with first | behind
      · exact ⟨seg, List.mem_cons_self, file, own, found, content, fits, first⟩
      · obtain ⟨seg', inside, rest⟩ := only record behind
        exact ⟨seg', List.mem_cons_of_mem _ inside, rest⟩

omit [Checksum] in
theorem readAll_inv [Checksum] {records : List (Nat × Bytes)} (read : (readAll log).1 = .ok records) :
    ∃ dir', readSegments log.segments log.dir = (.ok records, dir') := by
  rcases ran : readSegments log.segments log.dir with ⟨ended, dir'⟩
  refine ⟨dir', ?_⟩
  rw [readAll, Fallible.bind_run, Fallible.get_run] at read
  simp only [onDir, Fallible.part_run, ran] at read
  rw [read]

theorem stream_beyond {records own : List Bytes} {part : Bytes} (fits : Fits records)
    (fits' : Fits own) (whole : stream frame records ++ part = stream frame own) :
    ∃ more, own = records ++ more ∧ part = stream frame more := by
  have unreadable : ∀ found, (parse []).1 ≠ .entry found := by
    rw [parse_nil]
    exact fun _ => RecordRead.noConfusion
  have more : records <+: own := by
    refine run_longest fits' unreadable fits ?_
    rw [List.append_nil, ← whole]
    exact List.prefix_append _ _
  obtain ⟨more, rfl⟩ := more
  rw [Framing.stream_append] at whole
  exact ⟨more, rfl, List.append_cancel_left whole⟩

theorem Frayed.read_beyond (frayed : log.Frayed lead active part) (torn : part ≠ [])
    (synced : Log.sync log.healed = (.ok (), log')) {records : List (Nat × Bytes)}
    (read : (readAll log').1 = .ok records) : ∃ bytes, (log.lastIndex + 1, bytes) ∈ records := by
  obtain ⟨whole, laid, ragged⟩ := frayed
  obtain ⟨lead', last, file, _, _, segments, base, files, distinct, content⟩ :=
    ragged.healed.sync_ok laid.stacked synced
  obtain ⟨dir', ran⟩ := readAll_inv read
  have listed : last ∈ log'.segments := by simp [segments]
  obtain ⟨file', own, found, whole', fits, inside⟩ := (readSegments_inv ran).1 last listed
  have same : file' = file := by
    rw [base, Dir.find, files, Keyed.lookup_middle (Dir.absent_before files distinct)] at found
    exact (Option.some.inj found).symm
  rw [same, content] at whole'
  obtain ⟨more, rfl, rest⟩ := stream_beyond active.fits fits whole'
  have some_record : more ≠ [] := by
    rintro rfl
    exact torn rest
  obtain ⟨bytes, more, rfl⟩ := List.exists_cons_of_ne_nil some_record
  have ends : log.lastIndex + 1 = active.base + active.records.length := by
    have size := laid.last
    have start := laid.contiguous.active_base
    rw [flat_append, List.length_append, flat_cons, flat_nil, List.append_nil] at size
    rw [ragged.indices.2]
    omega
  refine ⟨bytes, inside (mem_number.mpr ?_)⟩
  rw [base, ends, Nat.add_sub_cancel_left]
  exact ⟨Nat.le_add_right _ _, by simp⟩

/-- The last index is the same. -/
def SameEnd (s t : Log) : Prop := t.lastIndex = s.lastIndex

omit [Checksum] in
theorem SameEnd.refl (log : Log) : SameEnd log log := rfl

omit [Checksum] in
theorem SameEnd.trans {s t u : Log} (first : SameEnd s t) (second : SameEnd t u) : SameEnd s u :=
  Eq.trans second first

omit [Checksum] in
theorem onFresh_sameEnd (m : Segment.Method Unit) (seg : Segment) :
    Fallible.Keeps SameEnd (onFresh m seg) := by
  intro log
  rw [onFresh]
  rcases m (log.dir, seg) with ⟨stop | ⟨⟩, dir, seg'⟩ <;> rfl

omit [Checksum] in
theorem dropTrailing_sameEnd (keepLast fuel : Nat) :
    Fallible.Keeps SameEnd (dropTrailing keepLast fuel) := by
  induction fuel with
  | zero => exact .pure .refl ()
  | succ fuel ih =>
    refine .bind SameEnd.trans (.get .refl) fun log => ?_
    cases log.segments.getLast? with
    | none => exact .pure .refl ()
    | some seg =>
      dsimp only
      split_ifs
      · exact .bind SameEnd.trans (fun _ => rfl) fun _ =>
          .bind SameEnd.trans (fun _ => rfl) fun _ => ih
      · exact .pure .refl ()

theorem rewriteLast_sameEnd (keepLast : Nat) : Fallible.Keeps SameEnd (rewriteLast keepLast) := by
  refine .bind SameEnd.trans (.get .refl) fun log => ?_
  cases log.segments.getLast? with
  | none => exact .refl
  | some seg =>
    refine .bind SameEnd.trans (fun _ => rfl) fun items => ?_
    refine .bind SameEnd.trans (.lift .refl _) fun kept => ?_
    refine .bind SameEnd.trans (fun _ => rfl) fun _ => .bind SameEnd.trans (fun _ => rfl) fun _ => ?_
    refine .bind SameEnd.trans (fun _ => rfl) fun fresh => ?_
    refine .bind SameEnd.trans (onFresh_sameEnd _ _) fun fresh => ?_
    exact .bind SameEnd.trans (onFresh_sameEnd _ _) fun fresh => fun _ => rfl

theorem truncateSuffix_sameEnd (keepLast : Nat) (log : Log) :
    Fallible.Leads (truncateSuffix keepLast) log (SameEnd log) fun _ _ => True := by
  refine Fallible.Leads.get_bind ?_
  split_ifs
  · trivial
  · exact .refl log
  · refine ((dropTrailing_sameEnd keepLast _).leads log).bind fun _ t first => ?_
    refine (((rewriteLast_sameEnd keepLast).leads t).mono fun u second => first.trans second).bind ?_
    exact fun _ _ _ => trivial

/-- Of these records, appended one after the other, one fails to be appended and is not refused:
part of its frame is taken. -/
def Tears : List Bytes → Log → Prop
  | [], _ => False
  | payload :: payloads, log =>
    match Log.append payload log with
    | (.ok _, log') => Tears payloads log'
    | (.error _, _) => ¬ log.Refuses

instance decidableTears : (payloads : List Bytes) → (log : Log) → Decidable (Tears payloads log)
  | [], _ => .isFalse not_false
  | payload :: payloads, log => by
    unfold Tears
    split
    · exact decidableTears payloads _
    · infer_instance

theorem Laid.append_leads (laid : log.Laid lead active) {payload : Bytes}
    (small : payload.length ≤ maxRecordLen) (payloads : List Bytes) :
    Fallible.Leads (Log.append payload) log
      (fun t => ∃ lead' active' part, t.Frayed lead' active' part ∧ t.firstIndex = log.firstIndex ∧
        t.lastIndex = log.lastIndex ∧ flat (lead' ++ [active']) = flat (lead ++ [active]) ∧
        (part = [] ↔ ¬ log.Tears (payload :: payloads)))
      fun _ t => ∃ lead' active', t.Laid lead' active' ∧ t.firstIndex = log.firstIndex ∧
        t.lastIndex = log.lastIndex + 1 ∧
        flat (lead' ++ [active']) = flat (lead ++ [active]) ++ [payload] ∧
        (log.Tears (payload :: payloads) ↔ t.Tears payloads) := by
  rcases laid.append_cases payload with ⟨log', ran, first, last, _, grown⟩ |
    ⟨stop, log', lead', active', part, ran, _, none, frayed, first, last, same⟩
  · obtain ⟨lead', active', laid', same, _⟩ := grown small
    rw [Fallible.Leads, Tears, ran]
    exact ⟨lead', active', laid', first, last, same, .rfl⟩
  · rw [Fallible.Leads, Tears, ran]
    exact ⟨lead', active', part, frayed, first, last, same, none.trans not_not.symm⟩

/-- A segment that has been written again holds what could be read of it. -/
theorem rewriteLast_ok {front : List Chunk} {c : Chunk}
    (segments : log.segments = (front ++ [c]).map Chunk.segment)
    (files : log.dir.files = (front ++ [c]).map Chunk.entry)
    (distinct : (log.dir.files.map Prod.fst).Nodup)
    (ran : rewriteLast keepLast log = (.ok (), log')) : ∃ kept c' outcomes,
      c.survivors keepLast = .ok kept ∧ c'.records = kept ∧ c'.base = c.base ∧
      log' = log.holding (front ++ [c']) outcomes := by
  have last : log.segments.getLast? = some c.segment := by simp [segments]
  have shorter : log.segments.dropLast = front.map Chunk.segment := by
    rw [segments, List.map_append]
    exact List.dropLast_concat
  have found : log.dir.find c.segment.baseIndex = some c.file := find_entry files distinct (by simp)
  have absent : c.base ∉ (front.map Chunk.entry).map Prod.fst := by
    rw [List.map_append] at files
    exact Dir.absent_before files distinct
  rw [rewriteLast, Fallible.bind_ok (Fallible.get_run log), last] at ran
  dsimp only at ran
  rcases Dir.attempt_cases log.dir with ⟨outcomes, ready, _⟩ | ⟨stop, outcomes, stopped, _⟩
  · have read : onDir c.segment.iter log =
        (.ok (Segment.items (c.file.content.length + 1) ⟨c.file.content, []⟩),
          { log with dir := { log.dir with outcomes } }) := by
      simp only [onDir, Fallible.part_run, Segment.iter, Fallible.bind_ok (Dir.read_run ready found)]
      rfl
    rw [Fallible.bind_ok read] at ran
    obtain ⟨kept, _, lifted, ran⟩ := Fallible.of_bind_ok ran
    obtain ⟨here, rfl⟩ := Prod.mk.inj lifted
    have survived : c.survivors keepLast = .ok kept := Except.of_mapError_ok here
    let popped : Log := { log with
      dir := { log.dir with outcomes }, segments := front.map Chunk.segment }
    have begun : (do onDir c.segment.remove; regrow c.base kept : Method Unit) popped =
        (.ok (), log') := by
      simp only [regrow, refill, Fallible.bind_assoc]
      rw [pop, Fallible.modify_bind, shorter] at ran
      exact ran
    obtain ⟨removed, refused⟩ := remove_chunk popped files distinct
    rw [List.append_nil] at removed
    rcases Dir.attempt_cases popped.dir with ⟨outcomes', ready', _⟩ | ⟨stop, outcomes', stopped, _⟩
    · rw [Fallible.bind_ok (removed _ ready')] at begun
      have there : (log.holding front outcomes').segments = front.map Chunk.segment := rfl
      rcases regrow_cases there rfl absent (c.survivors_records survived).2.1 with
        ⟨c', outcomes'', _, records, base, grown, _⟩ | ⟨_, stop, failed⟩
      · have ended := grown.symm.trans begun
        exact ⟨kept, c', outcomes'', survived, records, base, (congrArg Prod.snd ended).symm⟩
      · have ended := failed.symm.trans (congrArg Prod.fst begun)
        cases ended
    · obtain ⟨stop', _, ended, _⟩ := refused stop _ stopped
      rw [Fallible.bind_error ended] at begun
      cases begun
  · have refused : onDir c.segment.iter log =
        (.error stop, { log with dir := { log.dir with outcomes } }) := by
      simp only [onDir, Fallible.part_run, Segment.iter, Dir.read, Fallible.bind_run,
        Dir.existing_stopped stopped]
    rw [Fallible.bind_error refused] at ran
    cases ran

/-- What a truncation that succeeds has done to the segment that the cut falls into. -/
theorem Laid.truncateSuffix_inv (laid : log.Laid lead active)
    (accepted : log.firstIndex ≤ keepLast + 1) (cut : keepLast < log.lastIndex)
    (ran : Log.truncateSuffix keepLast log = (.ok (), log')) :
    ∃ front c trailing c' outcomes, lead ++ [active] = front ++ [c] ++ trailing ∧
      (∀ t ∈ trailing, keepLast < t.base) ∧ (front = [] ∨ c.base ≤ keepLast) ∧
      c.survivors keepLast = .ok c'.records ∧ c'.base = c.base ∧
      log' = { log with lastIndex := keepLast }.holding (front ++ [c']) outcomes := by
  obtain ⟨front, c, trailing, split, past, stays⟩ := split_at_cut keepLast
    (List.append_ne_nil_of_right_ne_nil lead (List.cons_ne_nil active []))
  rcases laid.truncateSuffix_begins accepted cut split past stays with
    ⟨_, begun⟩ | ⟨stop, _, _, _, stopped, _⟩
  · rw [begun] at ran
    obtain ⟨⟨⟩, log₁, rewritten, ended⟩ := Fallible.of_bind_ok ran
    cases ended
    have there : (log.holding (front ++ [c]) (log.dir.outcomes.drop trailing.length)).segments =
        (front ++ [c]).map Chunk.segment := rfl
    obtain ⟨kept, c', outcomes, survived, rfl, base, rfl⟩ :=
      rewriteLast_ok there rfl (laid.kept_distinct split) rewritten
    exact ⟨front, c, trailing, c', outcomes, split, past, stays, survived, base, rfl⟩
  · cases stopped.symm.trans ran

/-- The records up to the cut that are in its segment have reached the file. -/
def OnFile (keepLast : Nat) (chunks : List Chunk) : Prop :=
  ∀ c ∈ chunks, c.base ≤ keepLast → keepLast < c.base + c.records.length →
    c.Reached (keepLast + 1 - c.base)

theorem Laid.truncateSuffix_cases (laid : log.Laid lead active)
    (onFile : OnFile keepLast (lead ++ [active]))
    (accepted : log.firstIndex ≤ keepLast + 1) (cut : keepLast < log.lastIndex) :
    Fallible.Leads (Log.truncateSuffix keepLast) log (SameEnd log) fun _ t =>
      ∃ front c, t.Laid front c ∧ t.firstIndex = log.firstIndex ∧ t.lastIndex = keepLast ∧
        flat (front ++ [c]) = (flat (lead ++ [active])).take (keepLast + 1 - log.firstIndex) := by
  have ends := truncateSuffix_sameEnd keepLast log
  rcases ran : Log.truncateSuffix keepLast log with ⟨stop | ⟨⟩, log'⟩
  · rw [Fallible.Leads, ran]
    exact ends.stops ran
  · rw [Fallible.Leads, ran]
    obtain ⟨front, c, trailing, c', outcomes, split, past, stays, survived, base, rfl⟩ :=
      laid.truncateSuffix_inv accepted cut ran
    obtain ⟨_, below, inside⟩ := laid.cut_inside accepted cut split past stays
    have reached : c.Reached (keepLast + 1 - c.base) := by
      rcases Nat.lt_or_ge keepLast c.base with above | within
      · rw [Nat.sub_eq_zero_of_le above, Chunk.Reached, List.take_zero]
        exact List.nil_prefix
      · exact onFile c (by simp [split]) within (by omega)
    rw [c.survivors_reached inside reached] at survived
    obtain ⟨laid', all⟩ := laid.shortened accepted cut split past stays
      (Except.ok.inj survived).symm base outcomes
    exact ⟨front, c', laid', rfl, rfl, all⟩

end Log
end WalKv
