import WalKv.Raft.Backing

/-! A core is sound for a log when it stands for that log and its write-ahead
log has a record of every entry from some index at or below the first one in
memory. The methods that touch the log keep soundness, and `restore` rebuilds
the entries from the records. -/
namespace WalKv

namespace RaftCore
variable [Bincode] {core : RaftCore FlatLog} {l : List LogEntry} {e : LogEntry} {bytes : Bytes}
  {p : Nat} {clock : Clock}

structure Sound (core : RaftCore FlatLog) (l : List LogEntry) : Prop where
  holds : core.Holds l
  backs : core.log.Backs l
  reaches : core.log.firstIndex ≤ core.snapshot.lastIncludedIndex + 1

instance : Decidable (core.Sound l) :=
  decidable_of_iff (_ ∧ _ ∧ _) ⟨fun ⟨holds, backs, reaches⟩ => ⟨holds, backs, reaches⟩,
    fun sound => ⟨sound.holds, sound.backs, sound.reaches⟩⟩

theorem Sound.congr {core' : RaftCore FlatLog} (sound : core.Sound l)
    (snapshot : core'.snapshot = core.snapshot) (entries : core'.entries = core.entries)
    (log : core'.log = core.log) : core'.Sound l :=
  ⟨sound.holds.congr snapshot entries, log ▸ sound.backs, log ▸ snapshot ▸ sound.reaches⟩

omit [Bincode] in
/-- One more entry, in memory and in the log. -/
def withEntry (bytes : Bytes) (e : LogEntry) (core : RaftCore FlatLog) : RaftCore FlatLog :=
  { core with
    log := { core.log with records := core.log.records ++ [bytes] }
    entries := core.entries ++ [e] }

theorem Sound.withEntry (sound : core.Sound l) (next : e.index = l.length + 1)
    (encoded : Bincode.serialize e = .ok bytes) : (core.withEntry bytes e).Sound (l ++ [e]) where
  holds := sound.holds.concat next rfl rfl
  backs := sound.backs.append encoded
  reaches := sound.reaches

theorem Sound.grounded (sound : core.Sound l) (unsynced : Bool) : core.Grounded l unsynced :=
  ⟨sound.holds, core.log, rfl, sound.backs, sound.reaches⟩

theorem Grounded.sound {unsynced : Bool} (grounded : core.Grounded l unsynced) : core.Sound l := by
  obtain ⟨_, rfl, backs, reaches⟩ := grounded.recorded
  exact ⟨grounded.holds, backs, reaches⟩

theorem Sound.compact (sound : core.Sound l) {k : Nat}
    (above : core.snapshot.lastIncludedIndex < k) (below : k ≤ l.length) :
    ∃ core', RaftCore.compact ⟨k, Consensus.termAt l k⟩ core = (.ok (), core') ∧
      core' = { core with
        log := core'.log, entries := core'.entries, snapshot := core'.snapshot } ∧
      core'.snapshot.lastIncludedIndex = k ∧ core'.Sound l := by
  obtain ⟨core', ran, same, snapshot, grounded⟩ := (sound.grounded false).compact above below
  exact ⟨core', ran, same, by rw [snapshot], grounded.sound⟩

/-- A core that is restored from its own snapshot or a newer one stands for the same log, and starts
over as follower. -/
theorem Sound.restore [LawfulBincode] (sound : core.Sound l) {cfg : Config} {core' : RaftCore FlatLog}
    {k : Nat} (above : core.snapshot.lastIncludedIndex ≤ k) (below : k ≤ l.length)
    (restored : RaftCore.restore clock cfg core.hardPath ⟨k, Consensus.termAt l k⟩ core.log =
      .ok core') :
    core' = (assemble clock cfg core.hardPath ⟨k, Consensus.termAt l k⟩ core.log
      (l.drop k)).armed clock ∧ core'.Sound l := by
  have reaches : core.log.firstIndex ≤ k + 1 := sound.reaches.trans (Nat.succ_le_succ above)
  obtain ⟨records, entries, read, loaded, _, rfl⟩ := restore_ok restored
  cases read
  rw [sound.backs.load reaches] at loaded
  cases loaded
  exact ⟨rfl, ⟨below, rfl, sound.holds.indexed, rfl⟩, sound.backs, reaches⟩

theorem Sound.appendCommand (sound : core.Sound l) (leading : core.role = .leader)
    (command : Command) {entry : LogEntry}
    (next : entry = ⟨core.hard.currentTerm, l.length + 1, command⟩) :
    RaftCore.appendCommand command core = match Bincode.serialize entry with
      | .ok bytes => (.ok entry, core.withEntry bytes entry)
      | .error error => (.error (.err error), core) := by
  have last := sound.holds.lastLogIndex
  simp only [RaftCore.appendCommand, Fallible.bind_run, Fallible.get_run, last, ← next,
    if_neg (show ¬ core.role ≠ .leader by simp [leading])]
  rcases Bincode.serialize entry with error | bytes
  · rfl
  · rfl

/-- Storing a matching request: the spliced log, and a commit index no larger
than the leader's. -/
theorem Sound.store {args : AppendEntriesArgs} (sound : core.Sound l)
    (reach : p ≤ l.length)
    (contiguous : ∀ j e, args.entries[j]? = some e → e.index = p + j + 1)
    (encodable : ∀ e ∈ args.entries, Encodable e) {l' : List LogEntry}
    (spliced : l' = Consensus.splice core.snapshot.lastIncludedIndex l p args.entries) :
    ∃ core', RaftCore.store args core = (.ok ⟨core.hard.currentTerm, true, 0⟩, core') ∧
      LogOnly core core' ∧ core'.Sound l' ∧
      core'.commitIndex = if core.commitIndex < args.leaderCommit
        then min args.leaderCommit l'.length else core.commitIndex := by
  have recordable : ∀ e ∈ args.entries, Recordable FlatLog e := fun e member =>
    (encodable e member).imp fun _ encoded => ⟨encoded, trivial⟩
  obtain ⟨core', ran, only, grounded, commit⟩ :=
    (sound.grounded false).store reach contiguous recordable spliced
  exact ⟨core', ran, only, grounded.sound, commit⟩

end RaftCore
end WalKv
