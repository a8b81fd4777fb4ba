import ReplaySystem.IpcFine
import ReplaySystem.ReplayEngine
import ReplaySystem.System

/-!
# The multiprocess recorder's log, replayed

What the recorder process leaves on disk, read back by `FileChannel` and `ReplayEngine`.
Whenever the recorder process has left its loop, by itself or on a signal, it has written
what its batch held and closed the log, so the log is complete: its header carries the
clean-close flag, and the count and range of the messages it read from sequence 0.

## Main results

* `FineSys.recorder_log_replays` — in every interleaving of the load/store-level model in
  which the processes start after the server's `init` and no copy is overtaken, the log of
  a recorder process that has left its loop opens as a cleanly closed log of the messages
  it read, a prefix of what the server published, and `ReplayEngine` replays exactly them.
-/

namespace Replay

namespace Ipc

/-! ### The header of published messages -/

theorem firstSeqOf_published (P : List Msg) (n : Nat) :
    firstSeqOf ((List.range n).map (pushedMsg P)) = if n = 0 then invalidSeq else 0 := by
  cases n with
  | zero => rfl
  | succ n =>
    rw [List.range_succ_eq_map, List.map_cons, firstSeqOf_cons (by simp [invalidSeq_eq])]
    simp

theorem lastSeqOf_published (P : List Msg) (n : Nat) :
    lastSeqOf ((List.range n).map (pushedMsg P)) = n - 1 := by
  cases n with
  | zero => rfl
  | succ n => simp [List.range_succ]

/-- The header of the messages published under `0, …, n - 1` passes `isConsistent`: its
range has no gap. -/
theorem isConsistent_published (P : List Msg) (n : Nat) (f : UInt16) :
    { headerOf ((List.range n).map (pushedMsg P)) with flags := f }.isConsistent = true := by
  rcases Nat.eq_zero_or_pos n with rfl | hn
  · rfl
  · rw [FileHeader.isConsistent_of_range _ (headerOf_isValid _ f)] <;>
      simp [headerOf, firstSeqOf_published, lastSeqOf_published, Nat.pos_iff_ne_zero.mp hn] <;>
      omega

namespace FineSys

variable {dbl : DoubleArith} {messageCount messageRate : Int} {s : FineSys}

/-- **The recorder process leaves a complete log of what it read**: in every interleaving
whose readers poll only after `init` and in which no copy is overtaken (`NoLap`), once the
recorder process has left its loop, by itself or on a signal, its log opens as a cleanly
closed log of the messages it read, a prefix of what the server published, numbered from 0
with no gap; `ReplayEngine` then returns exactly those messages, and nothing after them.
The server's timestamps are `int64_t` values and it pushed fewer than `2 ^ 63` messages. -/
theorem recorder_log_replays
    (hs : Relation.ReflTransGen (NextNoLap dbl messageCount messageRate) started s)
    (hrec : s.recorder.pc = .exited) (hts : ∀ m ∈ s.server.produced, IsInt64 m.timestampNs)
    (hW : s.server.produced.length < 2 ^ 63) :
    let file := s.recorder.st.channel.file
    let r := FileChannel.new.«open» file
    s.recorder.seen <+: s.server.published ∧
    r.1 = true ∧ r.2.getMessageCount = s.recorder.seen.length ∧ r.2.wasCleanlyClose = true ∧
    r.2.getFirstSeq = (if s.recorder.seen = [] then invalidSeq else 0) ∧
    r.2.getFileLastSeq = s.recorder.seen.length - 1 ∧
    (ReplayEngine.new.«open» file).1 = true ∧
    ∀ j, ReplayEngine.nextN file (s.recorder.seen.length + j) (ReplayEngine.new.«open» file).2 =
      s.recorder.seen.map some ++ List.replicate j none := by
  intro file r
  obtain ⟨h, hp, -⟩ := reads_of_noLap hs
  obtain ⟨n, hn, hseen⟩ : ∃ n, n ≤ s.server.produced.length ∧
      s.recorder.seen = (List.range n).map (pushedMsg s.server.produced) := by
    refine ⟨s.recorder.seen.length, by simpa [FineServer.published] using hp.length_le, ?_⟩
    rw [List.prefix_iff_eq_take.mp hp, FineServer.published, ← List.map_take, List.take_range]
    simp
  have hfit : ∀ m ∈ s.recorder.seen, m.IsInt64 := by
    rw [hseen]
    simp only [List.mem_map, List.mem_range, forall_exists_index, and_imp]
    rintro _ k hk rfl
    exact Sys.pushedMsg_isInt64 hts hW (by omega)
  obtain ⟨calls, ⟨hx, -⟩ | ⟨-, hch, hw⟩⟩ := h.logs.log
  · rw [hrec] at hx; cases hx
  have hlen : (written calls).length < 2 ^ 63 := by
    rw [hw, hseen, List.length_map, List.length_range]; omega
  obtain ⟨hfile, hok, hat⟩ := FileChannel.open_close_at calls (hw ▸ hfit) hlen
  have hfile0 : file = (FileWriteChannel.new.«open».2.run calls).close.file :=
    congrArg FileWriteChannel.file hch
  rw [← hfile0] at hfile hok hat
  rw [hw] at hfile hat
  have hopen := FileChannel.open_log _ (headerOf_isInt64 hfit (by rwa [← hw]) fileFlagComplete)
    rfl (encodeAll s.recorder.seen)
  rw [← hfile] at hopen
  have hread : ∀ j, FileChannel.readN file (s.recorder.seen.length + j) r.2 =
      s.recorder.seen.map some ++ List.replicate j none := fun j => by
    have := @FileChannel.readN_log (encodeHeader { headerOf s.recorder.seen with
      flags := fileFlagComplete }) [] s.recorder.seen r.2 0 s.recorder.seen.length
      hat (Nat.zero_le _) le_rfl (length_encodeHeader _) j
    rw [List.append_nil, ← hfile] at this
    simpa [map_toInt64_of_isInt64 hfit] using this
  refine ⟨hp, hok, by simp [r, hopen, FileChannel.getMessageCount, headerOf], ?_, ?_, ?_,
    by simpa [ReplayEngine.new] using hok, fun j => ?_⟩
  · simp [r, hopen, FileChannel.wasCleanlyClose, hseen, isConsistent_published]
  · simp only [r, hopen, FileChannel.getFirstSeq, hseen, isConsistent_published, if_true]
    simp [headerOf, firstSeqOf_published]
  · simp only [r, hopen, FileChannel.getFileLastSeq, hseen, isConsistent_published, if_true]
    simp [headerOf, lastSeqOf_published]
  · rw [ReplayEngine.nextN_eq_readN]
    simpa [ReplayEngine.new] using hread j

/-- Ten messages pushed; the recorder reads five and is stopped by a signal. -/
theorem recorder_log_replays_after_signal :
    ∃ s, run ⟨(· + ·), (· - ·)⟩ 10 1 started (List.replicate 40 (FineEvent.server 0 0) ++
        List.replicate 10 (FineEvent.recorder zeroMsg) ++
        [FineEvent.recorderSignal, FineEvent.recorder zeroMsg]) = some s ∧
      s.recorder.pc = .exited ∧ (∀ m ∈ s.server.produced, IsInt64 m.timestampNs) ∧
      s.server.produced.length < 2 ^ 63 ∧ s.recorder.seen.length = 5 ∧
      let file := s.recorder.st.channel.file
      let r := FileChannel.new.«open» file
      s.recorder.seen <+: s.server.published ∧
      r.1 = true ∧ r.2.getMessageCount = s.recorder.seen.length ∧ r.2.wasCleanlyClose = true ∧
      r.2.getFirstSeq = (if s.recorder.seen = [] then invalidSeq else 0) ∧
      r.2.getFileLastSeq = s.recorder.seen.length - 1 ∧
      (ReplayEngine.new.«open» file).1 = true ∧
      ∀ j, ReplayEngine.nextN file (s.recorder.seen.length + j)
          (ReplayEngine.new.«open» file).2 =
        s.recorder.seen.map some ++ List.replicate j none := by
  refine ⟨_, rfl, rfl, by decide, by decide, rfl, ?_⟩
  exact recorder_log_replays (noLap_runs_of_le (by decide)
    (@run_steps ⟨(· + ·), (· - ·)⟩ 10 1 _ _ (List.replicate 40 (FineEvent.server 0 0) ++
      List.replicate 10 (FineEvent.recorder zeroMsg) ++
      [FineEvent.recorderSignal, FineEvent.recorder zeroMsg]) rfl)) rfl (by decide) (by decide)

end FineSys

end Ipc

end Replay
