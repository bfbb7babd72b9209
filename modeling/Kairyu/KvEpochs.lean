/-
  Kairyu/KvEpochs.lean
  ====================
  **Which epoch the index follows.**

  The publisher's epochs are numbered by its rotations.  Frames leave the socket in the
  order of their epochs, but a recovery answer carries the publisher's epoch of the moment
  and so can overtake frames that are still unread.  `TracksEpochs` says what keeps the index
  from falling back: every unread frame is of an epoch the index has retired or of one
  not older than its own.
-/
import Kairyu.KvIndex

namespace Kairyu

open List

/-! ### Entering an epoch -/

namespace ReplicaBlocks

variable {entry entry' : ReplicaBlocks} {epoch : Epoch} {staleness now : ℚ}

/-- A call with frames of `epoch` leaves the epoch and the tombstones, or enters it. -/
inductive Enters (epoch : Epoch) (entry entry' : ReplicaBlocks) : Prop where
  | stays (hepoch : entry'.streamEpoch = entry.streamEpoch)
      (hretired : entry'.retiredEpochs = entry.retiredEpochs)
  | enters (hlive : epoch ∉ entry.retiredEpochs) (hepoch : entry'.streamEpoch = some epoch)
      (hretired : entry'.retiredEpochs = (entry.enterEpoch epoch).retiredEpochs)

theorem enterEpoch_epoch (entry : ReplicaBlocks) (epoch : Epoch) :
    (entry.enterEpoch epoch).streamEpoch = some epoch := by
  rw [enterEpoch]
  split
  · next h => exact h
  · rfl

/-- An entry that moves on retires the epoch it followed. -/
theorem mem_retired_enterEpoch {x : Epoch} : x ∈ (entry.enterEpoch epoch).retiredEpochs ↔
    x ∈ entry.retiredEpochs ∨ entry.streamEpoch = some x ∧ x ≠ epoch := by
  rw [enterEpoch]
  split
  · next hsame =>
    rw [hsame, Option.some_inj]
    exact ⟨.inl, fun h => h.elim id fun hown => absurd hown.1.symm hown.2⟩
  · next hnew =>
    rw [adoptEpoch]
    cases hprevious : entry.streamEpoch with
    | none => simp
    | some previous =>
      have hne : previous ≠ epoch := fun heq => hnew (heq ▸ hprevious)
      simp only [if_neg hne, Finset.mem_insert, Option.some_inj]
      constructor
      · rintro (rfl | hold)
        · exact .inr ⟨rfl, hne⟩
        · exact .inl hold
      · rintro (hold | ⟨rfl, -⟩)
        · exact .inr hold
        · exact .inl rfl

theorem enters_enterEpoch (hlive : epoch ∉ entry.retiredEpochs)
    (hepoch : entry'.streamEpoch = (entry.enterEpoch epoch).streamEpoch)
    (hretired : entry'.retiredEpochs = (entry.enterEpoch epoch).retiredEpochs) : Enters epoch entry entry' :=
  .enters hlive (hepoch.trans (enterEpoch_epoch entry epoch)) hretired

theorem applySequenced_enters (entry : ReplicaBlocks) (staleness now : ℚ) (epoch : Epoch) (sequence : Nat)
    (event : BlockEvent) : Enters epoch entry (entry.applySequenced staleness now epoch sequence event).2 := by
  simp only [applySequenced]
  split
  · exact .stays rfl rfl
  · next hlive =>
    split
    · exact enters_enterEpoch hlive rfl rfl
    · split
      · exact enters_enterEpoch hlive rfl rfl
      · exact enters_enterEpoch hlive rfl rfl

/-- A gap is only ever reported of the epoch the entry follows. -/
theorem applySequenced_gap {sequence : Nat} {event : BlockEvent}
    (h : entry.applySequenced staleness now epoch sequence event = (.gap, entry')) :
    entry'.streamEpoch = some epoch := by
  simp only [applySequenced] at h
  split at h
  · exact nomatch (Prod.mk.inj h).1
  · split at h
    · exact nomatch (Prod.mk.inj h).1
    · split at h
      · obtain ⟨-, rfl⟩ := Prod.mk.inj h
        exact enterEpoch_epoch entry epoch
      · exact nomatch (Prod.mk.inj h).1

section

variable (entry : ReplicaBlocks)

theorem markGap_enters (epoch : Epoch) : Enters epoch entry (entry.markGap epoch).2 ∧
      ((entry.markGap epoch).1 = true → (entry.markGap epoch).2.streamEpoch = some epoch) := by
  rw [markGap]
  split
  · exact ⟨.stays rfl rfl, nofun⟩
  · next hlive => exact ⟨enters_enterEpoch hlive rfl rfl, fun _ => enterEpoch_epoch entry epoch⟩

theorem installSnapshot_enters (now : ℚ) (epoch : Epoch) (sequence : Int)
    (hashes : Finset BlockHash) : Enters epoch entry (entry.installSnapshot now epoch sequence hashes).2 := by
  rw [installSnapshot]
  split
  · exact .stays rfl rfl
  · next hlive => exact enters_enterEpoch hlive rfl rfl

theorem markSynchronized_stays (now : ℚ) (epoch : Epoch) (high : Int) :
    (entry.markSynchronized now epoch high).2.streamEpoch = entry.streamEpoch ∧
      (entry.markSynchronized now epoch high).2.retiredEpochs = entry.retiredEpochs := by
  rw [markSynchronized]
  split
  · exact ⟨rfl, rfl⟩
  · split
    · exact ⟨rfl, rfl⟩
    · exact ⟨rfl, rfl⟩

theorem heartbeat_enters (now : ℚ) (epoch : Epoch) (high : Int) :
    Enters epoch entry (entry.heartbeat now epoch high).2 := by
  rw [heartbeat]
  split
  · exact .stays rfl rfl
  · next hlive =>
    split
    · next hnew =>
      have henter : entry.enterEpoch epoch = entry.adoptEpoch epoch := if_neg hnew
      split
      · exact .enters hlive rfl (by rw [henter]; rfl)
      · exact .enters hlive rfl (by rw [henter])
    · split
      · exact .stays rfl rfl
      · exact .stays rfl rfl

end

/-- Entering an epoch twice is entering it once. -/
theorem Enters.trans {entry'' : ReplicaBlocks} (h : Enters epoch entry entry')
    (h' : Enters epoch entry' entry'') : Enters epoch entry entry'' := by
  cases h with
  | stays hepoch hretired =>
    cases h' with
    | stays hepoch' hretired' => exact .stays (hepoch'.trans hepoch) (hretired'.trans hretired)
    | enters hlive hepoch' hretired' =>
      refine .enters (hretired ▸ hlive) hepoch' (hretired'.trans ?_)
      simp only [enterEpoch, adoptEpoch, hepoch]
      split
      · exact hretired
      · simp only [hretired]
  | enters hlive hepoch hretired =>
    cases h' with
    | stays hepoch' hretired' => exact .enters hlive (hepoch'.trans hepoch) (hretired'.trans hretired)
    | enters _ hepoch' hretired' =>
      refine .enters hlive hepoch' (hretired'.trans ?_)
      rw [enterEpoch, if_pos hepoch, hretired]

/-- A call with frames of the entry's own epoch leaves both. -/
theorem Enters.own (h : Enters epoch entry entry') (hown : entry.streamEpoch = some epoch) :
    entry'.streamEpoch = entry.streamEpoch ∧ entry'.retiredEpochs = entry.retiredEpochs := by
  cases h with
  | stays hepoch hretired => exact ⟨hepoch, hretired⟩
  | enters _ hepoch hretired =>
    rw [enterEpoch, if_pos hown] at hretired
    exact ⟨hepoch.trans hown.symm, hretired⟩

end ReplicaBlocks

/-! ### What keeps the index from falling back -/

open ReplicaBlocks

/-- The publisher rotated away from `old` before it entered `new`. -/
def RotatedBefore (epochs : List Epoch) (old new : Epoch) : Prop := epochs.idxOf old < epochs.idxOf new

instance (epochs : List Epoch) (old new : Epoch) : Decidable (RotatedBefore epochs old new) :=
  inferInstanceAs (Decidable (_ < _))

/-- The entry follows one of the publisher's epochs, has retired only older ones, and
    every unread frame is of a retired epoch or of one not older than its own. -/
structure TracksEpochs (epochs unread : List Epoch) (entry : ReplicaBlocks) : Prop where
  known : ∀ e, entry.streamEpoch = some e → e ∈ epochs
  retired : ∀ x ∈ entry.retiredEpochs, x ∈ epochs ∧
    ∃ e, entry.streamEpoch = some e ∧ RotatedBefore epochs x e
  ahead : ∀ x ∈ unread, x ∈ entry.retiredEpochs ∨
    ∀ e, entry.streamEpoch = some e → ¬ RotatedBefore epochs x e

section TracksEpochs

variable {epochs unread unread' : List Epoch} {entry entry' : ReplicaBlocks} {x : Epoch}

/-- The entry stays in its epoch; new frames are of one that nothing is after. -/
theorem TracksEpochs.stay (h : TracksEpochs epochs unread entry) (hepoch : entry'.streamEpoch = entry.streamEpoch)
    (hretired : entry'.retiredEpochs = entry.retiredEpochs)
    (hunread : ∀ y ∈ unread', y ∈ unread ∨ ∀ e ∈ epochs, ¬ RotatedBefore epochs y e) :
    TracksEpochs epochs unread' entry' := by
  refine ⟨?_, ?_, ?_⟩
  · rw [hepoch]
    exact h.known
  · rw [hepoch, hretired]
    exact h.retired
  · intro y hy
    rw [hepoch, hretired]
    rcases hunread y hy with hold | hnew
    · exact h.ahead y hold
    · exact .inr fun e he => hnew e (h.known e he)

/-- The entry moves on to an epoch that no unread frame is left behind of. -/
theorem TracksEpochs.enter (h : TracksEpochs epochs unread entry) (hx : x ∈ epochs)
    (hforward : ∀ e, entry.streamEpoch = some e → ¬ RotatedBefore epochs x e)
    (hunread : ∀ y ∈ unread', y ∈ entry.retiredEpochs ∨ entry.streamEpoch = some y ∨ ¬ RotatedBefore epochs y x)
    (hepoch : entry'.streamEpoch = some x) (hretired : entry'.retiredEpochs = (entry.enterEpoch x).retiredEpochs) :
    TracksEpochs epochs unread' entry' := by
  refine ⟨?_, ?_, ?_⟩
  · rw [hepoch]
    rintro e ⟨⟩
    exact hx
  · intro y hy
    rw [hretired, mem_retired_enterEpoch] at hy
    rcases hy with hold | ⟨hown, hne⟩
    · obtain ⟨hy', e, he, hlt⟩ := h.retired y hold
      exact ⟨hy', x, hepoch, lt_of_lt_of_le hlt (not_lt.mp (hforward e he))⟩
    · have hy' := h.known y hown
      exact ⟨hy', x, hepoch, lt_of_le_of_ne (not_lt.mp (hforward y hown)) fun heq => hne ((idxOf_inj hy').mp heq)⟩
  · intro y hy
    rw [hepoch, hretired, mem_retired_enterEpoch]
    rcases hunread y hy with hold | hown | hahead
    · exact .inl (.inl hold)
    · by_cases hsame : y = x
      · subst hsame
        exact .inr fun e he => by cases he; exact lt_irrefl _
      · exact .inl (.inr ⟨hown, hsame⟩)
    · exact .inr fun e he => by cases he; exact hahead

/-! ### Rotations -/

theorem rotatedBefore_append {more : List Epoch} {a b : Epoch} (ha : a ∈ epochs) (hb : b ∈ epochs) :
    RotatedBefore (epochs ++ more) a b ↔ RotatedBefore epochs a b := by
  simp only [RotatedBefore, idxOf_append_of_mem ha, idxOf_append_of_mem hb]

/-- Nothing is after the publisher's current epoch. -/
theorem not_before_of_last {current : Epoch} (hnodup : epochs.Nodup) (hlast : epochs.getLast? = some current)
    (hx : x ∈ epochs) : ¬ RotatedBefore epochs current x := by
  obtain ⟨init, rfl⟩ := List.getLast?_eq_some_iff.mp hlast
  have hnew : current ∉ init := by
    intro hmem
    exact (disjoint_of_nodup_append hnodup) hmem (mem_singleton_self current)
  have hidx : (init ++ [current]).idxOf current = init.length := by
    rw [idxOf_append_of_notMem hnew]
    simp
  have hlt : (init ++ [current]).idxOf x < (init ++ [current]).length := idxOf_lt_length_of_mem hx
  rw [RotatedBefore, hidx]
  simpa [Nat.lt_succ_iff] using hlt

theorem TracksEpochs.rotate {more : List Epoch} (h : TracksEpochs epochs unread entry) (hunread : ∀ y ∈ unread, y ∈ epochs) :
    TracksEpochs (epochs ++ more) unread entry := by
  refine ⟨fun e he => mem_append_left _ (h.known e he), ?_, ?_⟩
  · intro y hy
    obtain ⟨hmem, e, he, hbefore⟩ := h.retired y hy
    exact ⟨mem_append_left _ hmem, e, he, (rotatedBefore_append hmem (h.known e he)).mpr hbefore⟩
  · intro y hy
    rcases h.ahead y hy with hold | hahead
    · exact .inl hold
    · refine .inr fun e he hbefore => hahead e he ?_
      exact (rotatedBefore_append (hunread y hy) (h.known e he)).mp hbefore

end TracksEpochs

namespace KvFeed

/-- The frames on their way, the oldest first. -/
def unread (f : KvFeed) : List FeedFrame := f.sent.drop f.read ++ (f.sender.toList ++ f.publisher.queue)

/-- All frames, the oldest first. -/
def frames (f : KvFeed) : List FeedFrame := f.sent ++ (f.sender.toList ++ f.publisher.queue)

theorem mem_frames_of_unread {f : KvFeed} {frame : FeedFrame} (h : frame ∈ f.unread) : frame ∈ f.frames := by
  rcases mem_append.mp h with hsent | hlater
  · exact mem_append_left _ (mem_of_mem_drop hsent)
  · exact mem_append_right _ hlater

end KvFeed

def ReplayResponse.epoch : ReplayResponse → Epoch
  | .events epoch _ _ => epoch
  | .snapshot epoch _ _ => epoch

/-- A feed with the epochs its publisher has had, the current one last. -/
structure EpochRun where
  feed : KvFeed
  epochs : List Epoch

namespace EpochRun

open KvFeed

variable {r r' : EpochRun} {staleness : ℚ}

def step (staleness : ℚ) (r : EpochRun) (s : FeedStep) : EpochRun :=
  let feed := r.feed.step staleness s
  { feed
    epochs :=
      if feed.publisher.generation = r.feed.publisher.generation then r.epochs
      else r.epochs ++ [feed.publisher.streamEpoch] }

/-- What the subscriber is doing fits the epoch of the index. -/
def PhaseFits (epochs : List Epoch) (entry : ReplicaBlocks) : SubscriberPhase → Prop
  | .idle => True
  | .asking epoch _ => entry.streamEpoch = some epoch
  | .answered _ (.snapshot epoch _ _) =>
    epoch ∈ epochs ∧ ∀ e, entry.streamEpoch = some e → ¬ RotatedBefore epochs epoch e
  | .answered _ (.events epoch _ events) | .replaying epoch _ _ events =>
    entry.streamEpoch = some epoch ∧ ∀ envelope ∈ events, envelope.streamEpoch = epoch

structure Follows (r : EpochRun) : Prop where
  nodup : r.epochs.Nodup
  current : r.epochs.getLast? = some r.feed.publisher.streamEpoch
  queue : ∀ frame ∈ r.feed.publisher.queue, frame.epoch = r.feed.publisher.streamEpoch
  journal : ∀ envelope ∈ r.feed.publisher.journal, envelope.streamEpoch = r.feed.publisher.streamEpoch
  known : ∀ frame ∈ r.feed.frames, frame.epoch ∈ r.epochs
  sorted : r.feed.frames.Pairwise fun a b => ¬ RotatedBefore r.epochs b.epoch a.epoch
  tracks : TracksEpochs r.epochs (r.feed.unread.map FeedFrame.epoch) r.feed.entry
  phase : PhaseFits r.epochs r.feed.entry r.feed.phase

theorem Follows.current_mem (h : r.Follows) : r.feed.publisher.streamEpoch ∈ r.epochs :=
  mem_of_getLast? h.current

/-- The publisher's own epoch is never retired. -/
theorem Follows.not_retired (h : r.Follows) : r.feed.publisher.streamEpoch ∉ r.feed.entry.retiredEpochs := by
  intro hmem
  obtain ⟨-, e, he, hbefore⟩ := h.tracks.retired _ hmem
  exact not_before_of_last h.nodup h.current (h.tracks.known e he) hbefore

/-! ### The publisher's side -/

theorem Follows.last (h : r.Follows) : ∀ e ∈ r.epochs, ¬ RotatedBefore r.epochs r.feed.publisher.streamEpoch e :=
  fun _ he => not_before_of_last h.nodup h.current he

/-- New frames of the current epoch change nothing for the subscriber. -/
theorem Follows.extend (h : r.Follows) {feed : KvFeed} (hentry : feed.entry = r.feed.entry)
    (hphase : feed.phase = r.feed.phase) (hepoch : feed.publisher.streamEpoch = r.feed.publisher.streamEpoch)
    (hqueue : ∀ frame ∈ feed.publisher.queue, frame.epoch = r.feed.publisher.streamEpoch)
    (hjournal : ∀ envelope ∈ feed.publisher.journal, envelope.streamEpoch = r.feed.publisher.streamEpoch)
    (hframes : ∀ frame ∈ feed.frames, frame ∈ r.feed.frames ∨ frame.epoch = r.feed.publisher.streamEpoch)
    (hsorted : feed.frames.Pairwise fun a b => ¬ RotatedBefore r.epochs b.epoch a.epoch)
    (hunread : ∀ frame ∈ feed.unread, frame ∈ r.feed.unread ∨ frame.epoch = r.feed.publisher.streamEpoch) :
    Follows ⟨feed, r.epochs⟩ := by
  refine ⟨h.nodup, ?_, ?_, ?_, ?_, hsorted, ?_, ?_⟩
  · exact h.current.trans (congrArg some hepoch.symm)
  · intro frame hframe
    exact (hqueue frame hframe).trans hepoch.symm
  · intro envelope henvelope
    exact (hjournal envelope henvelope).trans hepoch.symm
  · intro frame hframe
    rcases hframes frame hframe with hold | hnew
    · exact h.known frame hold
    · rw [hnew]
      exact h.current_mem
  · refine h.tracks.stay (by rw [hentry]) (by rw [hentry]) ?_
    intro y hy
    obtain ⟨frame, hframe, rfl⟩ := mem_map.mp hy
    rcases hunread frame hframe with hold | hnew
    · exact .inl (mem_map_of_mem hold)
    · rw [hnew]
      exact .inr h.last
  · have hfits := h.phase
    rwa [← hentry, ← hphase] at hfits

/-- What was published joins the queue, unless it is full. -/
theorem publish_ok {p p' : Publisher} {event : BlockEvent} {generation : Nat} (h : p.publish event generation = .ok p') :
    ∃ added : List FeedFrame, p'.queue = p.queue ++ added ∧ (∀ frame ∈ added, frame.epoch = p.streamEpoch) ∧
      p'.streamEpoch = p.streamEpoch ∧ ∀ envelope ∈ p'.journal, envelope ∈ p.journal ∨ envelope.streamEpoch = p.streamEpoch := by
  simp only [Publisher.publish] at h
  split at h
  · exact nomatch h
  cases h
  have hjournal : ∀ envelope ∈ p.journal ++ [⟨p.streamEpoch, p.nextSequence, event⟩],
      envelope ∈ p.journal ∨ envelope.streamEpoch = p.streamEpoch := by
    intro envelope henvelope
    rcases mem_append.mp henvelope with hold | hnew
    · exact .inl hold
    · rw [mem_singleton.mp hnew]
      exact .inr rfl
  by_cases hfull : p.queueSize ≤ p.queue.length
  · exact ⟨[], (if_pos hfull).trans (append_nil _).symm, fun _ hframe => absurd hframe not_mem_nil, rfl,
      fun envelope henvelope => hjournal envelope (mem_of_mem_drop henvelope)⟩
  · refine ⟨[_], if_neg hfull, fun frame hframe => ?_, rfl, fun envelope henvelope =>
      hjournal envelope (mem_of_mem_drop henvelope)⟩
    rw [mem_singleton.mp hframe]
    rfl

theorem Follows.publish (h : r.Follows) {event : BlockEvent} {generation : Nat} {publisher : Publisher}
    (hok : r.feed.publisher.publish event generation = .ok publisher) :
    Follows ⟨{ r.feed with publisher }, r.epochs⟩ := by
  obtain ⟨added, hqueue, hadded, hepoch, hjournal⟩ := publish_ok hok
  have hframes : ({ r.feed with publisher } : KvFeed).frames = r.feed.frames ++ added := by simp [frames, hqueue]
  have hunread : ({ r.feed with publisher } : KvFeed).unread = r.feed.unread ++ added := by simp [unread, hqueue]
  have hnew : ∀ (old : List FeedFrame), ∀ frame ∈ old ++ added,
      frame ∈ old ∨ frame.epoch = r.feed.publisher.streamEpoch :=
    fun _ frame hframe => (mem_append.mp hframe).imp_right (hadded frame)
  refine h.extend rfl rfl hepoch ?_ ?_ ?_ ?_ ?_
  · rw [hqueue]
    exact fun frame hframe => (hnew _ frame hframe).elim (h.queue frame) id
  · exact fun envelope henvelope => (hjournal envelope henvelope).elim (h.journal envelope) id
  · rw [hframes]
    exact hnew _
  · rw [hframes]
    refine pairwise_append.mpr ⟨h.sorted, pairwise_of_forall_mem_list ?_, ?_⟩
    · intro a ha b hb
      rw [hadded a ha, hadded b hb]
      exact lt_irrefl _
    · intro a ha b hb
      rw [hadded b hb]
      exact h.last _ (h.known a ha)
  · rw [hunread]
    exact hnew _

theorem rotateEpoch_ok {p p' : Publisher} {epoch : Epoch} (h : p.rotateEpoch epoch = .ok p') :
    p'.streamEpoch = epoch ∧ p'.generation = p.generation + 1 ∧ p'.queue = [] ∧ p'.journal = [] := by
  simp only [Publisher.rotateEpoch] at h
  split_ifs at h
  cases h
  exact ⟨rfl, rfl, rfl, rfl⟩

variable {epoch : Epoch} {frame : FeedFrame}

section

variable (h : r.Follows)
include h

theorem Follows.rotate {publisher : Publisher} (hfresh : epoch ∉ r.epochs)
    (hok : r.feed.publisher.rotateEpoch epoch = .ok publisher) :
    Follows ⟨{ r.feed with publisher }, r.epochs ++ [epoch]⟩ := by
  obtain ⟨hepoch, -, hqueue, hjournal⟩ := rotateEpoch_ok hok
  have hframes : r.feed.frames = ({ r.feed with publisher } : KvFeed).frames ++ r.feed.publisher.queue := by
    simp [frames, hqueue]
  have hunread : r.feed.unread = ({ r.feed with publisher } : KvFeed).unread ++ r.feed.publisher.queue := by
    simp [unread, hqueue]
  have hknown : ∀ frame ∈ ({ r.feed with publisher } : KvFeed).frames, frame.epoch ∈ r.epochs :=
    fun frame hframe => h.known frame (hframes ▸ mem_append_left _ hframe)
  refine ⟨?_, ?_, ?_, ?_, ?_, ?_, ?_, ?_⟩
  · exact nodup_append.mpr ⟨h.nodup, nodup_singleton epoch, fun a ha b hb =>
      fun heq => hfresh (mem_singleton.mp hb ▸ heq ▸ ha)⟩
  · rw [hepoch]
    exact List.getLast?_concat
  · simp [hqueue]
  · simp [hjournal]
  · exact fun frame hframe => mem_append_left _ (hknown frame hframe)
  · have hsorted := h.sorted
    rw [hframes] at hsorted
    refine (pairwise_append.mp hsorted).1.imp_of_mem ?_
    intro a b ha hb hab hbefore
    exact hab ((rotatedBefore_append (hknown b hb) (hknown a ha)).mp hbefore)
  · have htracks : TracksEpochs r.epochs (({ r.feed with publisher } : KvFeed).unread.map FeedFrame.epoch) r.feed.entry := by
      refine h.tracks.stay rfl rfl fun y hy => .inl ?_
      rw [hunread, map_append]
      exact mem_append_left _ hy
    refine htracks.rotate ?_
    intro y hy
    obtain ⟨frame, hframe, rfl⟩ := mem_map.mp hy
    exact hknown frame (mem_frames_of_unread hframe)
  · have hfits := h.phase
    cases hphase : r.feed.phase with
    | idle => exact trivial
    | asking e from' =>
      rw [hphase] at hfits
      exact hfits
    | replaying e high expected events =>
      rw [hphase] at hfits
      exact hfits
    | answered from' response =>
      rw [hphase] at hfits
      cases response with
      | events e high events => exact hfits
      | snapshot e high hashes =>
        refine ⟨mem_append_left _ hfits.1, fun e' he' hbefore => hfits.2 e' he' ?_⟩
        exact (rotatedBefore_append hfits.1 (h.tracks.known e' he')).mp hbefore

/-- Taking and sending a frame leave the frames as they are. -/
theorem Follows.shift {feed : KvFeed} (hentry : feed.entry = r.feed.entry)
    (hphase : feed.phase = r.feed.phase) (hepoch : feed.publisher.streamEpoch = r.feed.publisher.streamEpoch)
    (hqueue : ∀ frame ∈ feed.publisher.queue, frame ∈ r.feed.publisher.queue)
    (hjournal : feed.publisher.journal = r.feed.publisher.journal) (hframes : feed.frames = r.feed.frames)
    (hunread : ∀ frame ∈ feed.unread, frame ∈ r.feed.unread) : Follows ⟨feed, r.epochs⟩ := by
  refine h.extend hentry hphase hepoch ?_ ?_ ?_ ?_ ?_
  · exact fun frame hframe => h.queue frame (hqueue frame hframe)
  · rw [hjournal]
    exact h.journal
  · intro frame hframe
    rw [hframes] at hframe
    exact .inl hframe
  · rw [hframes]
    exact h.sorted
  · exact fun frame hframe => .inl (hunread frame hframe)

theorem Follows.beat (hsender : r.feed.sender = none) (high : Int) :
    Follows ⟨{ r.feed with sender := some (.heartbeat r.feed.publisher.streamEpoch high) }, r.epochs⟩ := by
  have hframes : r.feed.frames = r.feed.sent ++ r.feed.publisher.queue := by simp [frames, hsender]
  have hunread : r.feed.unread = r.feed.sent.drop r.feed.read ++ r.feed.publisher.queue := by simp [unread, hsender]
  have hnew : ∀ (sent : List FeedFrame),
      ∀ frame ∈ sent ++ (.heartbeat r.feed.publisher.streamEpoch high :: r.feed.publisher.queue),
        frame ∈ sent ++ r.feed.publisher.queue ∨ frame.epoch = r.feed.publisher.streamEpoch := by
    intro sent frame hframe
    simp only [mem_append, mem_cons] at hframe ⊢
    rcases hframe with hold | rfl | hold
    · exact .inl (.inl hold)
    · exact .inr rfl
    · exact .inl (.inr hold)
  refine h.extend rfl rfl rfl h.queue h.journal (hframes ▸ hnew _) ?_ (hunread ▸ hnew _)
  have hall := h.sorted
  rw [hframes] at hall
  obtain ⟨hsent, hqueue, hcross⟩ := pairwise_append.mp hall
  refine pairwise_append.mpr ⟨hsent, pairwise_cons.mpr ⟨?_, hqueue⟩, ?_⟩
  · intro frame hframe
    rw [h.queue frame hframe]
    exact lt_irrefl _
  · intro a ha b hb
    rcases mem_cons.mp hb with rfl | hb
    · exact h.last _ (h.known a (mem_append_left _ ha))
    · exact hcross a ha b hb

theorem Follows.take {queue : List FeedFrame} (hsender : r.feed.sender = none)
    (hqueue : r.feed.publisher.queue = frame :: queue) :
    Follows ⟨{ r.feed with publisher := { r.feed.publisher with queue }, sender := some frame }, r.epochs⟩ := by
  refine h.shift rfl rfl rfl ?_ rfl ?_ ?_
  · intro frame' hframe'
    rw [hqueue]
    exact mem_cons_of_mem _ hframe'
  · simp [frames, hsender, hqueue]
  · simp [unread, hsender, hqueue]

theorem Follows.send (hsender : r.feed.sender = some frame) :
    Follows ⟨{ r.feed with sent := r.feed.sent ++ [frame], sender := none }, r.epochs⟩ := by
  refine h.shift rfl rfl rfl (fun _ hmem => hmem) rfl ?_ ?_
  · simp [frames, hsender]
  · intro frame' hframe'
    simp only [unread, hsender, Option.toList_none, Option.toList_some, nil_append, mem_append,
      drop_append, mem_singleton] at hframe' ⊢
    rcases hframe' with (hold | hnew) | hold
    · exact .inl hold
    · exact .inr (.inl (mem_singleton.mp (mem_of_mem_drop hnew)))
    · exact .inr (.inr hold)

end

/-! ### The subscriber's side -/

/-- A call of the subscriber: the frames stay, and the entry tracks what is left of them. -/
theorem Follows.subscriber (h : r.Follows) {feed : KvFeed} (hpublisher : feed.publisher = r.feed.publisher)
    (hframes : feed.frames = r.feed.frames) (htracks : TracksEpochs r.epochs (feed.unread.map FeedFrame.epoch) feed.entry)
    (hphase : PhaseFits r.epochs feed.entry feed.phase) : Follows ⟨feed, r.epochs⟩ := by
  refine ⟨h.nodup, ?_, ?_, ?_, ?_, ?_, htracks, hphase⟩
  · rw [hpublisher]
    exact h.current
  · rw [hpublisher]
    exact h.queue
  · rw [hpublisher]
    exact h.journal
  · rw [hframes]
    exact h.known
  · rw [hframes]
    exact h.sorted

theorem handleSequenced_enters (f : KvFeed) (staleness now : ℚ) (frame : FeedFrame) :
    ∃ entry phase, f.handleSequenced staleness now frame = { f with entry, phase } ∧ Enters frame.epoch f.entry entry ∧
      (phase = f.phase ∨ entry.streamEpoch = some frame.epoch ∧ ∃ n, phase = .asking frame.epoch n) := by
  cases frame with
  | heartbeat epoch high =>
    have hbeat := heartbeat_enters f.entry now epoch high
    rw [handleSequenced]
    split
    · next entry heq =>
      rw [heq] at hbeat
      exact ⟨entry, f.phase, rfl, hbeat, .inl rfl⟩
    · next entry heq =>
      rw [heq] at hbeat
      obtain ⟨hgap, hepoch⟩ := markGap_enters entry epoch
      split
      · next entry' heq' =>
        rw [heq'] at hgap
        exact ⟨entry', f.phase, rfl, hbeat.trans hgap, .inl rfl⟩
      · next entry' heq' =>
        rw [heq'] at hgap hepoch
        exact ⟨entry', _, rfl, hbeat.trans hgap, .inr ⟨hepoch rfl, _, rfl⟩⟩
  | event envelope =>
    have happly := applySequenced_enters f.entry staleness now envelope.streamEpoch envelope.sequence
      envelope.event
    rw [handleSequenced]
    split
    · next entry heq =>
      rw [heq] at happly
      exact ⟨entry, _, rfl, happly, .inr ⟨applySequenced_gap heq, _, rfl⟩⟩
    · next result entry _ heq =>
      rw [heq] at happly
      exact ⟨entry, f.phase, rfl, happly, .inl rfl⟩

/-- The state follows on, and its index has not fallen back. -/
structure Advances (r r' : EpochRun) : Prop where
  follows : r'.Follows
  epochs : ∃ more, r'.epochs = r.epochs ++ more
  forward : ∀ e, r.feed.entry.streamEpoch = some e →
    ∃ e', r'.feed.entry.streamEpoch = some e' ∧ ¬ RotatedBefore r'.epochs e' e

theorem advances_of_same {feed : KvFeed} (h : Follows ⟨feed, r.epochs⟩)
    (hepoch : feed.entry.streamEpoch = r.feed.entry.streamEpoch) : Advances r ⟨feed, r.epochs⟩ :=
  ⟨h, ⟨[], (append_nil _).symm⟩, fun e he => ⟨e, hepoch.trans he, lt_irrefl _⟩⟩

section

variable (h : r.Follows)
include h

theorem Follows.deliver {position : Nat} (now : ℚ) (hphase : r.feed.phase = .idle)
    (hframe : r.feed.sent[position]? = some frame) (horder : r.feed.read ≤ position) :
    Advances r ⟨{ r.feed with read := position + 1 }.handleSequenced staleness now frame, r.epochs⟩ := by
  obtain ⟨hlt, hget⟩ := List.getElem?_eq_some_iff.mp hframe
  have hsplit : r.feed.sent = r.feed.sent.take position ++ frame :: r.feed.sent.drop (position + 1) := by
    rw [← hget, getElem_cons_drop, take_append_drop]
  have hunread : ∀ y ∈ ({ r.feed with read := position + 1 } : KvFeed).unread, y ∈ r.feed.unread := by
    intro y hy
    simp only [unread, mem_append] at hy ⊢
    rcases hy with hsent | hlater
    · refine .inl ?_
      have hdrop : r.feed.sent.drop (position + 1) =
          (r.feed.sent.drop r.feed.read).drop (position + 1 - r.feed.read) := by
        rw [drop_drop]
        congr 1
        omega
      rw [hdrop] at hsent
      exact mem_of_mem_drop hsent
    · exact .inr hlater
  have hmem : frame ∈ r.feed.unread := by
    refine mem_append_left _ ?_
    have hget' : (r.feed.sent.drop r.feed.read)[position - r.feed.read]? = some frame := by
      rw [List.getElem?_drop, Nat.add_sub_cancel' horder, hframe]
    exact mem_of_getElem? hget'
  have hlater : ∀ y ∈ ({ r.feed with read := position + 1 } : KvFeed).unread,
      ¬ RotatedBefore r.epochs y.epoch frame.epoch := by
    intro y hy
    have hsorted := h.sorted
    rw [frames, hsplit, append_assoc] at hsorted
    exact (pairwise_cons.mp (pairwise_append.mp hsorted).2.1).1 y hy
  have hknown : frame.epoch ∈ r.epochs := h.known frame (mem_frames_of_unread hmem)
  obtain ⟨entry, phase, heq, henters, hasks⟩ :=
    handleSequenced_enters { r.feed with read := position + 1 } staleness now frame
  rw [heq]
  have hfits : PhaseFits r.epochs entry phase := by
    rcases hasks with hsame | ⟨hepoch, n, rfl⟩
    · rw [hsame]
      simp only [hphase]
      exact trivial
    · exact hepoch
  cases henters with
  | stays hepoch hretired =>
    refine advances_of_same (h.subscriber rfl rfl ?_ hfits) hepoch
    exact h.tracks.stay hepoch hretired fun y hy => .inl (map_subset _ hunread hy)
  | enters hlive hepoch hretired =>
    have hforward : ∀ e, r.feed.entry.streamEpoch = some e → ¬ RotatedBefore r.epochs frame.epoch e := by
      rcases h.tracks.ahead frame.epoch (mem_map_of_mem hmem) with hold | hahead
      · exact absurd hold hlive
      · exact hahead
    refine ⟨h.subscriber rfl rfl ?_ hfits, ⟨[], by simp⟩, fun e he => ⟨frame.epoch, hepoch, hforward e he⟩⟩
    refine h.tracks.enter hknown hforward ?_ hepoch hretired
    intro y hy
    obtain ⟨frame', hframe', rfl⟩ := mem_map.mp hy
    exact .inr (.inr (hlater frame' hframe'))

theorem Follows.answer {n : Nat} (hphase : r.feed.phase = .asking epoch n) :
    Follows ⟨{ r.feed with phase := .answered n (r.feed.publisher.replayResponse epoch n) }, r.epochs⟩ := by
  have hown : r.feed.entry.streamEpoch = some epoch := by
    have hfits := h.phase
    rwa [hphase] at hfits
  refine h.subscriber rfl rfl h.tracks ?_
  simp only [Publisher.replayResponse]
  split
  · next hsame =>
    refine ⟨hown.trans (congrArg some hsame.1), ?_⟩
    intro envelope henvelope
    exact h.journal envelope (mem_of_mem_filter henvelope)
  · exact ⟨h.current_mem, fun e he => h.last e (h.tracks.known e he)⟩

/-- The entry changes within its epoch. -/
theorem Follows.within {entry : ReplicaBlocks} {phase : SubscriberPhase}
    (hepoch : entry.streamEpoch = r.feed.entry.streamEpoch)
    (hretired : entry.retiredEpochs = r.feed.entry.retiredEpochs) (hphase : PhaseFits r.epochs entry phase) :
    Advances r ⟨{ r.feed with entry, phase }, r.epochs⟩ := by
  refine advances_of_same (h.subscriber rfl rfl ?_ hphase) hepoch
  exact h.tracks.stay hepoch hretired fun y hy => .inl hy

theorem Follows.takeAnswer {n : Nat} {response : ReplayResponse} (now : ℚ)
    (hphase : r.feed.phase = .answered n response)
    (hunread : ∀ frame ∈ r.feed.unread, frame.epoch ∈ r.feed.entry.retiredEpochs ∨
      r.feed.entry.streamEpoch = some frame.epoch ∨ ¬ RotatedBefore r.epochs frame.epoch response.epoch) :
    Advances r ⟨r.feed.takeAnswer now n response, r.epochs⟩ := by
  have hfits := h.phase
  rw [hphase] at hfits
  cases response with
  | events epoch high events =>
    exact advances_of_same (h.subscriber rfl rfl h.tracks hfits) rfl
  | snapshot epoch high hashes =>
    cases installSnapshot_enters r.feed.entry now epoch high hashes with
    | stays hepoch hretired => exact h.within hepoch hretired trivial
    | enters _ hepoch hretired =>
      refine ⟨h.subscriber rfl rfl ?_ trivial, ⟨[], by simp⟩, fun e he => ⟨epoch, hepoch, hfits.2 e he⟩⟩
      refine h.tracks.enter hfits.1 hfits.2 ?_ hepoch hretired
      intro y hy
      obtain ⟨frame, hframe, rfl⟩ := mem_map.mp hy
      exact hunread frame hframe

theorem Follows.replayNext {high : Int} {expected : Nat} (now : ℚ) {events : List Envelope}
    (hphase : r.feed.phase = .replaying epoch high expected events) :
    Advances r ⟨r.feed.replayNext staleness now epoch high expected events, r.epochs⟩ := by
  have hfits := h.phase
  rw [hphase] at hfits
  obtain ⟨hown, hevents⟩ := hfits
  cases events with
  | nil =>
    rw [KvFeed.replayNext]
    split
    · exact h.within rfl rfl trivial
    · obtain ⟨hepoch, hretired⟩ := markSynchronized_stays r.feed.entry now epoch high
      exact h.within hepoch hretired trivial
  | cons envelope events =>
    have henvelope : envelope.streamEpoch = epoch := hevents envelope mem_cons_self
    obtain ⟨hepoch, hretired⟩ := (applySequenced_enters r.feed.entry staleness now envelope.streamEpoch
      envelope.sequence envelope.event).own (hown.trans (congrArg some henvelope.symm))
    have hrest : ∀ envelope ∈ events, envelope.streamEpoch = epoch :=
      fun envelope' hmem => hevents envelope' (mem_cons_of_mem _ hmem)
    rw [KvFeed.replayNext]
    split
    · exact h.within rfl rfl trivial
    · split
      · next entry heq =>
        rw [heq] at hepoch hretired
        exact h.within hepoch hretired ⟨hepoch.trans hown, hrest⟩
      · next entry heq =>
        rw [heq] at hepoch hretired
        exact h.within hepoch hretired ⟨hepoch.trans hown, hrest⟩
      · next result entry _ _ heq =>
        rw [heq] at hepoch hretired
        exact h.within hepoch hretired trivial

end

/-! ### Runs -/

/-- Frames are delivered in the order they were sent; those in between are lost. -/
def InOrder (r : EpochRun) : FeedStep → Prop
  | .deliver position _ => r.feed.read ≤ position
  | _ => True

/-- An epoch is never used twice, and an answer that carries the index to a new epoch
    finds no unread frame of an epoch in between. -/
def Settled (r : EpochRun) : FeedStep → Prop
  | .rotate epoch => epoch ∉ r.epochs
  | .proceed _ =>
    match r.feed.phase with
    | .answered _ response =>
      ∀ frame ∈ r.feed.unread, frame.epoch ∈ r.feed.entry.retiredEpochs ∨
        r.feed.entry.streamEpoch = some frame.epoch ∨ ¬ RotatedBefore r.epochs frame.epoch response.epoch
    | _ => True
  | _ => True

/-- Only a rotation moves the publisher on. -/
theorem step_generation (f : KvFeed) (staleness : ℚ) {s : FeedStep} (h : ∀ epoch, s ≠ .rotate epoch) :
    (f.step staleness s).publisher.generation = f.publisher.generation := by
  cases s with
  | publish event generation =>
    simp only [KvFeed.step, Publisher.publish]
    split <;> rename_i heq <;> split at heq
    · exact nomatch heq
    · cases heq
      rfl
    · rfl
    · rfl
  | rotate epoch => exact absurd rfl (h epoch)
  | take | beat | send | answer | timeout =>
    simp only [KvFeed.step]
    split <;> rfl
  | deliver position now =>
    simp only [KvFeed.step]
    split
    · next frame _ _ =>
      obtain ⟨entry, phase, heq, -⟩ := handleSequenced_enters { f with read := position + 1 } staleness now frame
      rw [heq]
    · rfl
  | proceed now =>
    simp only [KvFeed.step]
    split
    · next n response _ => cases response <;> rfl
    · next epoch high expected events _ =>
      cases events with
      | nil =>
        rw [KvFeed.replayNext]
        split <;> rfl
      | cons envelope events =>
        rw [KvFeed.replayNext]
        split
        · rfl
        · split <;> rfl
    · rfl

theorem step_of_not_rotate (r : EpochRun) (staleness : ℚ) {s : FeedStep} (h : ∀ epoch, s ≠ .rotate epoch) :
    r.step staleness s = ⟨r.feed.step staleness s, r.epochs⟩ := by
  simp only [step, step_generation r.feed staleness h, if_true]

theorem Follows.refl (h : r.Follows) : Advances r r := advances_of_same h rfl

theorem Follows.rotateStep (h : r.Follows) (hfresh : epoch ∉ r.epochs) :
    Advances r (r.step staleness (.rotate epoch)) := by
  cases hok : r.feed.publisher.rotateEpoch epoch with
  | error e =>
    have hstep : r.step staleness (.rotate epoch) = r := by simp only [EpochRun.step, KvFeed.step, hok, if_true]
    rw [hstep]
    exact h.refl
  | ok publisher =>
    obtain ⟨hepoch, hgeneration, -⟩ := rotateEpoch_ok hok
    have hstep : r.step staleness (.rotate epoch) = ⟨{ r.feed with publisher }, r.epochs ++ [epoch]⟩ := by
      simp only [EpochRun.step, KvFeed.step, hok, hgeneration, Nat.succ_ne_self, if_false, hepoch]
    rw [hstep]
    exact ⟨h.rotate hfresh hok, ⟨[epoch], rfl⟩, fun e he => ⟨e, he, lt_irrefl _⟩⟩

/-- **One step** keeps what keeps the index from falling back. -/
theorem Follows.step (h : r.Follows) (s : FeedStep) (horder : r.InOrder s) (hsettled : r.Settled s) :
    Advances r (r.step staleness s) := by
  by_cases hrotate : ∃ epoch, s = .rotate epoch
  · obtain ⟨epoch, rfl⟩ := hrotate
    exact h.rotateStep hsettled
  rw [step_of_not_rotate r staleness fun epoch heq => hrotate ⟨epoch, heq⟩]
  cases s with
  | rotate epoch => exact absurd ⟨epoch, rfl⟩ hrotate
  | publish event generation =>
    simp only [KvFeed.step]
    split
    · next publisher hok => exact advances_of_same (h.publish hok) rfl
    · exact h.refl
  | take =>
    simp only [KvFeed.step]
    split
    · next frame queue hsender hqueue => exact advances_of_same (h.take hsender hqueue) rfl
    · exact h.refl
  | beat =>
    simp only [KvFeed.step]
    split
    · next hsender => exact advances_of_same (h.beat hsender _) rfl
    · exact h.refl
  | send =>
    simp only [KvFeed.step]
    split
    · exact h.refl
    · next frame hsender => exact advances_of_same (h.send hsender) rfl
  | deliver position now =>
    simp only [KvFeed.step]
    split
    · next frame hphase hframe => exact h.deliver now hphase hframe horder
    · exact h.refl
  | answer =>
    simp only [KvFeed.step]
    split
    · next epoch n hphase => exact advances_of_same (h.answer hphase) rfl
    · exact h.refl
  | timeout =>
    simp only [KvFeed.step]
    split
    · exact h.within rfl rfl trivial
    · exact h.refl
  | proceed now =>
    simp only [KvFeed.step]
    split
    · next n response hphase =>
      simp only [Settled, hphase] at hsettled
      exact h.takeAnswer now hphase hsettled
    · next epoch high expected events hphase => exact h.replayNext now hphase
    · exact h.refl

def run (staleness : ℚ) (r : EpochRun) (steps : List FeedStep) : EpochRun := steps.foldl (step staleness) r

/-- Every step of the run meets the condition in the state before it. -/
def Meets (condition : EpochRun → FeedStep → Prop) (staleness : ℚ) : EpochRun → List FeedStep → Prop
  | _, [] => True
  | r, s :: steps => condition r s ∧ Meets condition staleness (r.step staleness s) steps

theorem meets_append {condition : EpochRun → FeedStep → Prop} {steps more : List FeedStep} :
    Meets condition staleness r (steps ++ more) ↔
      Meets condition staleness r steps ∧ Meets condition staleness (r.run staleness steps) more := by
  induction steps generalizing r with
  | nil => simp [Meets, run]
  | cons s steps ih =>
    simp only [cons_append, Meets, ih, and_assoc]
    rfl

theorem Advances.trans {r'' : EpochRun} (h : Advances r r') (h' : Advances r' r'') (hr : r.Follows) :
    Advances r r'' := by
  obtain ⟨more, hmore⟩ := h.epochs
  obtain ⟨more', hmore'⟩ := h'.epochs
  refine ⟨h'.follows, ⟨more ++ more', by rw [hmore', hmore, append_assoc]⟩, ?_⟩
  intro e he
  obtain ⟨e', he', hforward⟩ := h.forward e he
  obtain ⟨e'', he'', hforward'⟩ := h'.forward e' he'
  refine ⟨e'', he'', ?_⟩
  have hmem : e ∈ r'.epochs := hmore ▸ mem_append_left _ (hr.tracks.known e he)
  have hmem' : e' ∈ r'.epochs := h.follows.tracks.known e' he'
  have hkeep : ¬ RotatedBefore r''.epochs e' e := by
    rw [hmore', rotatedBefore_append hmem' hmem]
    exact hforward
  simp only [RotatedBefore, not_lt] at hkeep hforward' ⊢
  exact hkeep.trans hforward'

theorem Follows.run (h : r.Follows) (steps : List FeedStep) (horder : Meets InOrder staleness r steps)
    (hsettled : Meets Settled staleness r steps) : Advances r (r.run staleness steps) := by
  induction steps generalizing r with
  | nil => exact h.refl
  | cons s steps ih =>
    have hstep : Advances r (r.step staleness s) := h.step s horder.1 hsettled.1
    exact hstep.trans (ih hstep.follows horder.2 hsettled.2) h

/-- A publisher in its first epoch, and a subscriber that has seen nothing. -/
def start (epoch : Epoch) (bufferEvents queueSize : Nat) (h : 1 ≤ bufferEvents) : EpochRun :=
  ⟨{ publisher := { streamEpoch := epoch, bufferEvents, queueSize, buffer_pos := h } }, [epoch]⟩

theorem start_follows (epoch : Epoch) (bufferEvents queueSize : Nat) (h : 1 ≤ bufferEvents) :
    (start epoch bufferEvents queueSize h).Follows := by
  refine ⟨?_, ?_, ?_, ?_, ?_, ?_, ⟨?_, ?_, ?_⟩, trivial⟩ <;> simp [start, frames]

/-- **No fallback.**  In every run of rotations, publications, losses and delays, with
    frames in order and recoveries answered at any moment, where no epoch is used twice
    and no answer overtakes frames of an epoch in between: the index never goes back
    behind an epoch it had, and the publisher's own epoch is never retired. -/
theorem feed_never_falls_back (staleness : ℚ) (epoch : Epoch) (bufferEvents queueSize : Nat)
    (h : 1 ≤ bufferEvents) (steps more : List FeedStep)
    (horder : Meets InOrder staleness (start epoch bufferEvents queueSize h) (steps ++ more))
    (hsettled : Meets Settled staleness (start epoch bufferEvents queueSize h) (steps ++ more))
    (r r' : EpochRun) (hr : r = (start epoch bufferEvents queueSize h).run staleness steps)
    (hr' : r' = r.run staleness more) :
    (∀ e e', r.feed.entry.streamEpoch = some e → r'.feed.entry.streamEpoch = some e' → ¬ RotatedBefore r'.epochs e' e) ∧
    r'.feed.publisher.streamEpoch ∉ r'.feed.entry.retiredEpochs := by
  subst hr hr'
  rw [meets_append] at horder hsettled
  have hfirst := (start_follows epoch bufferEvents queueSize h).run steps horder.1 hsettled.1
  have hthen := hfirst.follows.run more horder.2 hsettled.2
  refine ⟨fun e e' he he' => ?_, hthen.follows.not_retired⟩
  obtain ⟨e'', he'', hforward⟩ := hthen.forward e he
  obtain rfl : e'' = e' := Option.some.inj (he''.symm.trans he')
  exact hforward

instance (r : EpochRun) : DecidablePred r.InOrder
  | .deliver position _ => inferInstanceAs (Decidable (r.feed.read ≤ position))
  | .publish _ _ | .rotate _ | .take | .beat | .send | .answer | .timeout | .proceed _ => .isTrue trivial

instance decidableMeets {condition : EpochRun → FeedStep → Prop} [∀ r, DecidablePred (condition r)]
    (staleness : ℚ) :
    (r : EpochRun) → (steps : List FeedStep) → Decidable (Meets condition staleness r steps)
  | _, [] => .isTrue trivial
  | r, s :: steps =>
    @instDecidableAnd _ _ inferInstance (decidableMeets staleness (r.step staleness s) steps)

/-- One rotation, seen by the heartbeat of each epoch. -/
theorem feed_never_falls_back_once :
    let r := (start (Text.of "a") 1 1 le_rfl).run 1 [.beat, .send, .deliver 0 0, .rotate (Text.of "b")]
    let r' := r.run 1 [.beat, .send, .deliver 1 0]
    r.feed.entry.streamEpoch = some (Text.of "a") ∧ r'.feed.entry.streamEpoch = some (Text.of "b") ∧
      ¬ RotatedBefore r'.epochs (Text.of "b") (Text.of "a") ∧
      r'.feed.publisher.streamEpoch ∉ r'.feed.entry.retiredEpochs := by
  have hsettled : Meets Settled 1 (start (Text.of "a") 1 1 le_rfl)
      ([.beat, .send, .deliver 0 0, .rotate (Text.of "b")] ++ [.beat, .send, .deliver 1 0]) :=
    ⟨trivial, trivial, trivial, (by decide : Text.of "b" ∉ [Text.of "a"]), trivial, trivial, trivial, trivial⟩
  obtain ⟨hforward, hretired⟩ := feed_never_falls_back 1 (Text.of "a") 1 1 le_rfl
    [.beat, .send, .deliver 0 0, .rotate (Text.of "b")] [.beat, .send, .deliver 1 0]
    (by decide +kernel) hsettled _ _ rfl rfl
  have ha : ((start (Text.of "a") 1 1 le_rfl).run 1
      [.beat, .send, .deliver 0 0, .rotate (Text.of "b")]).feed.entry.streamEpoch = some (Text.of "a") := by
    decide +kernel
  have hb : (((start (Text.of "a") 1 1 le_rfl).run 1 [.beat, .send, .deliver 0 0, .rotate (Text.of "b")]).run
      1 [.beat, .send, .deliver 1 0]).feed.entry.streamEpoch = some (Text.of "b") := by
    decide +kernel
  exact ⟨ha, hb, hforward _ _ ha hb, hretired⟩

/-- Two rotations while a heartbeat of the first epoch waits: its recovery carries the
    index to `c`, and the heartbeat of `b` behind it takes the index back. -/
theorem second_rotation_falls_back :
    let steps : List FeedStep := [.beat, .send, .deliver 0 0, .publish (.stored []) 0, .beat, .send,
      .rotate (Text.of "b"), .beat, .send, .rotate (Text.of "c"), .deliver 1 0, .answer, .proceed 0]
    let more : List FeedStep := [.deliver 2 0]
    let r := (start (Text.of "a") 1 1 le_rfl).run 1 steps
    let r' := r.run 1 more
    Meets InOrder 1 (start (Text.of "a") 1 1 le_rfl) (steps ++ more) ∧
      r.feed.entry.streamEpoch = some (Text.of "c") ∧ r'.feed.entry.streamEpoch = some (Text.of "b") ∧
      RotatedBefore r'.epochs (Text.of "b") (Text.of "c") ∧
      r'.feed.publisher.streamEpoch = Text.of "c" ∧ Text.of "c" ∈ r'.feed.entry.retiredEpochs := by
  decide +kernel

end EpochRun

end Kairyu
