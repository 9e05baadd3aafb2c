import DubstepDucks.Torrent.Dispatch
import DubstepDucks.Torrent.Greeting
import DubstepDucks.Torrent.Writes

/-!
# Torrent — the file over a run

The client touches its file in two places: `case(PIECE)` writes a piece, and
`Send_piece` reads one. So the file is a second reading of the log, next to
the records: `fileMachine` is what an event does to it, and `run_filed` is
the refinement. What stands in every byte of the file after a run follows
from the machine alone (`file_of_log`).

The own bitfield is in the same place: one `|=` on its first byte. The
second half of the module says what that makes of a long torrent
(`ninth_piece_never_own`).
-/

namespace DubstepDucks.Torrent

open CMem Btp History

/-- The int that `lseek` is given for a piece. -/
def BtInfo.offset (ans : BtInfo) (p : CInt) : CInt := p * ans.pieceSizeBytes

/-- What an event does to the file; `none` is a descriptor without one. -/
def fileEffect (ans : BtInfo) (file : Option (List Byte)) : Event → Option (List Byte)
  | .stored _ p _ written _ =>
      file.map fun content => fileWrite content (ans.offset p).toNat written
  | _ => file

/-- What `write_piece` has checked when a piece is stored. -/
def fileGuard (ans : BtInfo) (file : Option (List Byte)) : Event → Prop
  | .stored _ p _ written _ =>
      file.isSome = true ∧ 0 ≤ (ans.offset p).toInt ∧ written.length ≤ ans.pieceLength
  | _ => True

def fileMachine (ans : BtInfo) : Machine (Option (List Byte)) Event :=
  ⟨fileEffect ans, fileGuard ans⟩

/-- From `s` to `s'` the file went as `evs` say. -/
def Filed (ans : BtInfo) (s s' : Client) (evs : List Event) : Prop :=
  (fileMachine ans).Admits s.file evs ∧ s'.file = (fileMachine ans).after s.file evs

/-- The event is a stored piece. -/
def Stores (ev : Event) : Prop := ∃ k p block written shift, ev = .stored k p block written shift

section Steps

variable {sha1 : List Byte → Digest} {ans : BtInfo} {s s' s'' : Client} {k : Nat} {e : Env}
  {evs evs' : List Event}

/-! ## Composing stretches of a log -/

theorem Filed.append (h : Filed ans s s' evs) (h' : Filed ans s' s'' evs') :
    Filed ans s s'' (evs ++ evs') := by
  refine ⟨Machine.admits_append.mpr ⟨h.1, ?_⟩, ?_⟩
  · rw [← h.2]
    exact h'.1
  · rw [Machine.after_append, ← h.2]
    exact h'.2

/-- Only the files matter for where a stretch starts and ends. -/
theorem Filed.congr {r r' : Client} (h : Filed ans s s' evs) (hs : r.file = s.file)
    (hs' : r'.file = s'.file) : Filed ans r r' evs := by
  refine ⟨?_, ?_⟩
  · rw [hs]
    exact h.1
  · rw [hs, hs']
    exact h.2

theorem fileEffect_of_not_stores (ans : BtInfo) {ev : Event} (h : ¬ Stores ev)
    (file : Option (List Byte)) :
    fileEffect ans file ev = file ∧ fileGuard ans file ev := by
  cases ev with
  | stored k p block written shift => exact absurd ⟨_, _, _, _, _, rfl⟩ h
  | _ => exact ⟨rfl, trivial⟩

/-- Events that store nothing leave the file alone. -/
theorem Filed.silent (hevs : ∀ ev ∈ evs, ¬ Stores ev) (h : s'.file = s.file) :
    Filed ans s s' evs := by
  have hall : (fileMachine ans).Admits s.file evs ∧
      (fileMachine ans).after s.file evs = s.file := by
    clear h
    induction evs with
    | nil => exact ⟨Machine.admits_nil _, rfl⟩
    | cons ev evs ih =>
        obtain ⟨heffect, hguard⟩ := fileEffect_of_not_stores ans (hevs ev (by simp)) s.file
        obtain ⟨hadmits, hafter⟩ := ih fun ev' hev' => hevs ev' (by simp [hev'])
        have hsingle : (fileMachine ans).after s.file [ev] = s.file := heffect
        rw [← List.singleton_append, Machine.admits_append, Machine.after_append, hsingle]
        exact ⟨⟨Machine.admits_singleton.mpr hguard, hadmits⟩, hafter⟩
  exact ⟨hall.1, h.trans hall.2.symm⟩

theorem Filed.cons {ev : Event} (hev : ¬ Stores ev) (h : Filed ans s s' evs) :
    Filed ans s s' (ev :: evs) := by
  have hfirst : Filed ans s s [ev] := by
    refine .silent ?_ rfl
    intro ev' hmem
    rwa [List.mem_singleton.mp hmem]
  exact hfirst.append h

/-! ## The steps -/

theorem smash_file (h : s.smash e = .ok (s', evs)) :
    s'.file = s.file ∧ ∀ ev ∈ evs, ¬ Stores ev := by
  obtain ⟨hlog, -⟩ := smash_ok h
  refine ⟨?_, ?_⟩
  · rw [Client.smash] at h
    split at h
    · cases h
    · cases h
      rfl
  · intro ev hmem
    rw [hlog] at hmem
    rw [List.mem_singleton.mp hmem]
    rintro ⟨k, p, block, written, shift, heq⟩
    cases heq

theorem transmit_file {turn : Nat} {f : Connections → Connections × WireMsg}
    (h : s.transmit turn k f e = .ok (s', evs)) :
    s'.file = s.file ∧ ∀ ev ∈ evs, ¬ Stores ev := by
  obtain ⟨rfl, rfl⟩ := transmit_ok h
  refine ⟨rfl, ?_⟩
  intro ev hmem
  rw [List.mem_singleton.mp hmem]
  rintro ⟨k, p, block, written, shift, heq⟩
  cases heq

/-- A handshake that passes changes the buffer, and nothing else. -/
theorem checkHandshake_keeps (h : checkHandshake s e = .ok s') :
    s'.file = s.file ∧ s'.i = s.i := by
  rw [checkHandshake] at h
  split at h
  · cases h
  · cases h
    exact ⟨rfl, rfl⟩

theorem handleHave_filed {p : CInt} (h : handleHave s k p e = .ok (s', evs)) :
    Filed ans s s' evs := by
  rw [handleHave] at h
  split at h
  · cases h
  · split at h
    · obtain ⟨hfile, hevs⟩ := smash_file h
      exact .silent hevs hfile
    · dsimp only at h
      split at h
      · obtain ⟨hfile, hevs⟩ := smash_file h
        exact .silent hevs hfile
      · cases h
        exact .silent (by simp) rfl

theorem handleBitfield_filed {msg : Mem} (h : handleBitfield ans s k msg e = .ok (s', evs)) :
    Filed ans s s' evs := by
  rw [handleBitfield] at h
  split at h
  · cases h
  · dsimp only at h
    split at h
    · obtain ⟨hfile, hevs⟩ := smash_file h
      exact .silent hevs hfile
    · cases h
      exact .silent (by simp) rfl

theorem handlePiece_filed {msg : Mem} (h : handlePiece sha1 ans s k msg e = .ok (s', evs)) :
    Filed ans s s' evs := by
  rw [handlePiece] at h
  dsimp only at h
  split at h
  · cases h
  split at h
  · cases h
  split at h
  · cases h
  · cases h
    exact .silent (by simp) rfl
  split at h
  · cases h
  next w hwrite =>
  split at h
  · cases h
  next v _ =>
  cases h
  obtain ⟨content, hfile, hpos, hw⟩ := writePiece_ok hwrite
  have hlen : w.bytes.length ≤ ans.pieceLength := by
    rw [writePiece_bytes hwrite, List.length_take, length_newlined, Mem.length_read,
      toNat_pieceSizeBytes]
    exact Nat.min_le_right _ _
  refine ⟨Machine.admits_singleton.mpr ⟨?_, hpos, hlen⟩, ?_⟩
  · rw [hfile]
    rfl
  · show some w.file = s.file.map fun content => _
    rw [hfile, hw]
    rfl

theorem receiveMsg_filed {chunk : List Byte} (h : receiveMsg sha1 ans s k chunk e = .ok (s', evs)) :
    Filed ans s s' evs := by
  have hheard : ∀ m, ¬ Stores (.heard k chunk m) := by
    rintro m ⟨k, p, block, written, shift, heq⟩
    cases heq
  rw [receiveMsg] at h
  split at h
  · cases h
  · dsimp only at h
    split at h <;> obtain ⟨⟨s1, evs1⟩, hstep, hlog⟩ := map_ok h <;> cases hlog
    case h_5 => exact .cons (hheard _) (handleHave_filed hstep)
    case h_6 => exact .cons (hheard _) (handleBitfield_filed hstep)
    case h_8 => exact .cons (hheard _) (handlePiece_filed hstep)
    all_goals
      cases hstep
      exact .cons (hheard _) (.silent (by simp) rfl)

theorem receive_filed {r : Recv} (h : receive sha1 ans s k r e = .ok (s', evs)) :
    Filed ans s s' evs := by
  cases r with
  | error =>
      cases h
      exact .silent (by simp) rfl
  | closed =>
      cases h
      exact .silent (by simp [Stores]) rfl
  | chunk c =>
      rw [receive] at h
      split at h
      · obtain ⟨s1, hcheck, rfl, rfl⟩ := greet_ok h
        have hfile := (checkHandshake_keeps hcheck).1
        exact .silent (by simp [Stores]) hfile
      · split at h
        · obtain ⟨s1, s2, evs2, bits, f, hcheck, -, hsend, rfl, rfl⟩ := greetWithBitfield_ok h
          obtain ⟨hfile, hevs⟩ := transmit_file hsend
          have hbefore := (checkHandshake_keeps hcheck).1
          exact .cons (by simp [Stores]) (.silent hevs (hfile.trans hbefore))
        · exact (receiveMsg_filed h).congr rfl rfl

/-- The POLLOUT branch only reads the file. -/
theorem serve_filed (h : serve ans s k e = .ok (s', evs)) : Filed ans s s' evs := by
  rcases serve_cases h with ⟨rfl, rfl⟩ | ⟨-, h⟩ | ⟨-, -, h⟩ | ⟨f, -, h⟩ | ⟨-, h⟩
  · exact .silent (by simp) rfl
  · obtain ⟨piece, s1, evs1, evs2, -, hsmash, hsend, rfl⟩ := uploadPiece_ok h
    obtain ⟨hfile, hevs⟩ := transmit_file hsend
    have hsmashed : Filed ans s s1 evs1 := by
      rcases hsmash with ⟨rfl, rfl⟩ | hsmash
      · exact .silent (by simp) rfl
      · exact .silent (smash_file hsmash).2 (smash_file hsmash).1
    exact hsmashed.append (.silent hevs hfile)
  · exact .silent (transmit_file h).2 (transmit_file h).1
  · exact .silent (transmit_file h).2 (transmit_file h).1
  · obtain ⟨i, p, -, -, hsend⟩ := requestPiece_ok h
    exact .silent (transmit_file hsend).2 (transmit_file hsend).1

theorem turn_filed {r : Recv} {eRecv eSend : Env}
    (h : Torrent.turn sha1 ans s r eRecv eSend = .ok (s', evs)) : Filed ans s s' evs := by
  rw [Torrent.turn] at h
  split at h
  · cases h
  split at h
  · cases h
    exact .silent (by simp) rfl
  split at h
  · cases h
  next hreceive =>
  split at h
  · cases h
  next hserve =>
  cases h
  exact (receive_filed hreceive).append ((serve_filed hserve).congr rfl rfl)

theorem startRound_file (s : Client) (poll : Poll) : (startRound s poll).file = s.file := by
  cases poll with
  | nothing => rfl
  | ready pollout accepted => cases accepted <;> rfl

end Steps

variable {sha1 : List Byte → Digest} {ans : BtInfo} {s₀ s : Client} {log : List Event}

/-- **The main loop refines the file machine.** -/
theorem run_filed (h : Run sha1 ans s₀ log s) : Filed ans s₀ s log := by
  induction h with
  | start => exact .silent (by simp) rfl
  | round poll _ _ ih =>
      rw [Filed, startRound_file]
      exact ih
  | turn r eRecv eSend _ _ hturn ih => exact ih.append (turn_filed hturn)

/-! ## Every byte of the file -/

/-- The event writes byte `i` of the file. -/
def Covers (ans : BtInfo) (i : Nat) : Event → Prop
  | .stored _ p _ written _ =>
      (ans.offset p).toNat ≤ i ∧ i < (ans.offset p).toNat + written.length
  | _ => False

/-- Byte `i` is what it was; behind the old end it may have become the zero
of a hole. -/
def KeptAt (content content' : List Byte) (i : Nat) : Prop :=
  content'[i]? = content[i]? ∨ (content[i]? = none ∧ content'[i]? = some 0)

theorem KeptAt.trans {content content₁ content₂ : List Byte} {i : Nat}
    (h : KeptAt content content₁ i) (h' : KeptAt content₁ content₂ i) :
    KeptAt content content₂ i := by
  rcases h with heq | ⟨hnone, hzero⟩
  · rwa [KeptAt, ← heq]
  · rcases h' with heq' | ⟨hnone', -⟩
    · exact .inr ⟨hnone, heq'.trans hzero⟩
    · rw [hzero] at hnone'
      cases hnone'

theorem keptAt_fileWrite (content : List Byte) {off : Nat} {bs : List Byte} {i : Nat}
    (h : ¬ (off ≤ i ∧ i < off + bs.length)) : KeptAt content (fileWrite content off bs) i := by
  by_cases hbs : bs = []
  · rw [hbs, fileWrite_nil]
    exact .inl rfl
  rw [KeptAt, getElem?_fileWrite _ _ hbs]
  by_cases hbefore : i < off
  · rw [if_pos hbefore]
    cases hold : content[i]? with
    | none => exact .inr ⟨rfl, rfl⟩
    | some b => exact .inl rfl
  · rw [if_neg hbefore, if_neg (by omega)]
    exact .inl rfl

/-- An open file stays open, and keeps what no event covers. -/
theorem after_keeps (ans : BtInfo) (log : List Event) : ∀ content : List Byte,
    ∃ content', (fileMachine ans).after (some content) log = some content' ∧
      ∀ i, (∀ ev ∈ log, ¬ Covers ans i ev) → KeptAt content content' i := by
  induction log with
  | nil =>
      intro content
      exact ⟨content, rfl, fun _ _ => .inl rfl⟩
  | cons ev log ih =>
      intro content
      have hfirst : ∃ content₁, fileEffect ans (some content) ev = some content₁ ∧
          ∀ i, ¬ Covers ans i ev → KeptAt content content₁ i := by
        cases ev with
        | stored k p block written shift => exact ⟨_, rfl, fun i hi => keptAt_fileWrite _ hi⟩
        | _ => exact ⟨content, rfl, fun _ _ => .inl rfl⟩
      obtain ⟨content₁, heffect, hkept⟩ := hfirst
      obtain ⟨content', hafter, hrest⟩ := ih content₁
      refine ⟨content', ?_, ?_⟩
      · show (fileMachine ans).after (fileEffect ans (some content) ev) log = some content'
        rw [heffect, hafter]
      · intro i hi
        exact (hkept i (hi ev (by simp))).trans (hrest i fun ev' hev' => hi ev' (by simp [hev']))

/-- Behind an event that writes byte `i`, and none that writes it again,
stands the byte that was written. -/
theorem after_last {post : List Event} {k : Nat} {p shift : CInt} {block written : List Byte}
    {i : Nat} (content : List Byte) (pre : List Event)
    (hin : Covers ans i (.stored k p block written shift))
    (hpost : ∀ ev ∈ post, ¬ Covers ans i ev) :
    ∃ content', (fileMachine ans).after (some content)
        (pre ++ .stored k p block written shift :: post) = some content' ∧
      content'[i]? = written[i - (ans.offset p).toNat]? := by
  obtain ⟨content₁, hpre, -⟩ := after_keeps ans pre content
  obtain ⟨content', hafter, hkept⟩ := after_keeps ans post
    (fileWrite content₁ (ans.offset p).toNat written)
  refine ⟨content', ?_, ?_⟩
  · rw [Machine.after_append, hpre]
    exact hafter
  · obtain ⟨hle, hlt⟩ := hin
    have hwritten : written ≠ [] := by
      intro hnil
      rw [hnil, List.length_nil] at hlt
      omega
    have hbyte : (fileWrite content₁ (ans.offset p).toNat written)[i]?
        = written[i - (ans.offset p).toNat]? := by
      rw [getElem?_fileWrite _ _ hwritten, if_neg (Nat.not_lt.mpr hle), if_pos hlt]
    rcases hkept i hpost with heq | ⟨hnone, -⟩
    · exact heq.trans hbyte
    · -- the byte is in the file, so no hole can be there
      rw [hbyte, List.getElem?_eq_none_iff] at hnone
      omega

/-- **The file is the log replayed.** After every run each byte of the file
is that of the last stored piece that covers it, and one that none covers is
what it was (or the zero of a hole). A client without a file never stores
anything. -/
theorem file_of_log (hrun : Run sha1 ans s₀ log s) :
    (∀ k p block written shift, .stored k p block written shift ∈ log →
      0 ≤ (ans.offset p).toInt ∧ block.length = ans.pieceLength ∧ written <+: newlined block) ∧
    (s₀.file = none → s.file = none ∧ ∀ ev ∈ log, ¬ Stores ev) ∧
    ∀ content, s₀.file = some content → ∃ content', s.file = some content' ∧ ∀ i,
      ((∀ ev ∈ log, ¬ Covers ans i ev) → KeptAt content content' i) ∧
      ∀ pre k p block written shift post, log = pre ++ .stored k p block written shift :: post →
        Covers ans i (.stored k p block written shift) → (∀ ev ∈ post, ¬ Covers ans i ev) →
        content'[i]? = written[i - (ans.offset p).toNat]? := by
  obtain ⟨hadmits, hfile⟩ := run_filed hrun
  -- what both machines have checked when a piece was stored
  have hguard : ∀ k p block written shift, .stored k p block written shift ∈ log →
      ∃ pre, fileGuard ans ((fileMachine ans).after s₀.file pre)
          (.stored k p block written shift) ∧
        block.length = ans.pieceLength ∧ written = (newlined block).take written.length := by
    intro k p block written shift hmem
    obtain ⟨pre, post, rfl⟩ := List.append_of_mem hmem
    have hpre : pre ++ [.stored k p block written shift]
        <+: pre ++ .stored k p block written shift :: post := by simp
    exact ⟨pre, hadmits pre _ hpre, (run_traced hrun).1 pre _ hpre⟩
  refine ⟨?_, ?_, ?_⟩
  · intro k p block written shift hmem
    obtain ⟨pre, ⟨-, hpos, -⟩, hblock, hwritten⟩ := hguard k p block written shift hmem
    refine ⟨hpos, hblock, ?_⟩
    rw [hwritten]
    exact List.take_prefix _ _
  · intro hnone
    have hafter : ∀ evs, (fileMachine ans).after none evs = none := by
      intro evs
      induction evs with
      | nil => rfl
      | cons ev evs ih =>
          have hnext : fileEffect ans none ev = none := by cases ev <;> rfl
          show (fileMachine ans).after (fileEffect ans none ev) evs = none
          rw [hnext, ih]
    refine ⟨by rw [hfile, hnone, hafter], ?_⟩
    rintro ev hmem ⟨k, p, block, written, shift, rfl⟩
    obtain ⟨pre, ⟨hopen, -⟩, -⟩ := hguard k p block written shift hmem
    rw [hnone, hafter] at hopen
    cases hopen
  · intro content hcontent
    obtain ⟨content', hafter, hkept⟩ := after_keeps ans log content
    rw [hcontent, hafter] at hfile
    refine ⟨content', hfile, fun i => ⟨hkept i, ?_⟩⟩
    intro pre k p block written shift post hlog hin hpost
    subst hlog
    obtain ⟨content₁, hlast, hbyte⟩ := after_last content pre hin hpost
    rw [hafter, Option.some.injEq] at hlast
    rw [hlast, hbyte]

/-- One block arrives on slot 1 and is stored as piece 1. -/
def storedOnce : List Event :=
  [.heard 1 (WireMsg.piece 1 0x43424100 4 [68, 0, 0, 0]).bytes (.piece 1),
    .stored 1 1 [65, 66, 67, 68] [65, 66, 67, 68] 6,
    .sent 1 1 (.state MsgID.uninterested.byte)]

theorem storedOnce_run :
    ∃ s, Run (fun _ => shaOfABCD) (alike shaOfABCD) (joined (alike shaOfABCD)) storedOnce s := by
  have hlog : (execute (fun _ => shaOfABCD) (alike shaOfABCD) (joined (alike shaOfABCD))
      [.round (.ready (fun _ => true) (some 6)),
        .turn (.msg (.piece 1 0x43424100 4 [68, 0, 0, 0]) (by decide))
          (.pointing 0x7f0000000001 6) .calm]).map Prod.snd = some storedOnce := rfl
  exact run_of_log hlog

/-- `ABCD` stands behind the first four bytes, which are kept. -/
theorem file_of_log_stored :
    ∃ s content', Run (fun _ => shaOfABCD) (alike shaOfABCD) (joined (alike shaOfABCD))
        storedOnce s ∧
      s.file = some content' ∧ KeptAt (ascii "ABC" ++ [0]) content' 2 ∧ content'[6]? = some 67 := by
  obtain ⟨s, hrun⟩ := storedOnce_run
  obtain ⟨-, -, hbytes⟩ := file_of_log hrun
  obtain ⟨content', hfile, hbyte⟩ := hbytes _ rfl
  refine ⟨s, content', hrun, hfile, ?_, ?_⟩
  · apply (hbyte 2).1
    simp only [storedOnce, List.forall_mem_cons, List.not_mem_nil, false_implies, implies_true,
      and_true]
    exact ⟨id, fun hin => absurd hin.1 (by decide), id⟩
  · exact (hbyte 6).2 [_] 1 1 _ _ 6 [_] rfl ⟨by decide, by decide⟩ (by simp [Covers])

/-! ## The own bitfield beyond its first byte -/

/-- A stored piece changes the first byte of the bitfield and no other. -/
theorem own_after (ans : BtInfo) {log : List Event} (hcalm : ∀ own, .smashed own ∉ log) :
    ∀ {v : View} {b : Byte} {rest : List Byte}, v.own = b :: rest →
      ∃ b', ((machine ans).after v log).own = b' :: rest := by
  induction log with
  | nil =>
      intro v b rest hv
      exact ⟨b, hv⟩
  | cons ev log ih =>
      intro v b rest hv
      have hnext : ∃ b', (effect v ev).own = b' :: rest := by
        cases ev with
        | stored k p block written shift =>
            show ∃ b', setOwn v.own shift = b' :: rest
            rw [hv]
            exact ⟨_, rfl⟩
        | smashed own => exact absurd (List.mem_cons_self) (hcalm own)
        | _ => exact ⟨b, hv⟩
      obtain ⟨b', hb'⟩ := hnext
      exact ih (fun own hmem => hcalm own (List.mem_cons_of_mem _ hmem)) hb'

/-- Nothing but an answered handshake introduces the client. -/
theorem receive_introduces {r : Recv} {e : Env} {s' : Client} {evs : List Event} {i k : Nat}
    {intro : List Byte} (h : receive sha1 ans s i r e = .ok (s', evs))
    (hmem : .introduced k intro ∈ evs) :
    intro = ownHandshake ++ introPayload ans s.ownBitfield e := by
  cases r with
  | error =>
      cases h
      cases hmem
  | closed =>
      cases h
      simp at hmem
  | chunk c =>
      by_cases hlen : c.bytes.length = fullHandshakeLength
      · have hslot : k = i := by
          rw [receive, if_pos hlen] at h
          obtain ⟨s1, -, -, rfl⟩ := greet_ok h
          simp only [List.mem_cons, reduceCtorEq, Event.introduced.injEq, List.not_mem_nil,
            or_false, false_or] at hmem
          exact hmem.1
        rw [hslot] at hmem
        exact intro_of_receive hlen h hmem
      · rw [receive, if_neg hlen] at h
        split at h
        · obtain ⟨s1, s2, evs2, bits, f, -, -, hsend, -, rfl⟩ := greetWithBitfield_ok h
          obtain ⟨-, rfl⟩ := transmit_ok hsend
          simp at hmem
        · obtain ⟨n, -, evs1, rfl, hafter⟩ := receiveMsg_events h
          rcases List.mem_cons.mp hmem with hmem | hmem
          · cases hmem
          · rcases hafter _ hmem with ⟨own, heq⟩ | ⟨p, block, written, shift, heq⟩ <;> cases heq

/-- The POLLOUT branch sends messages, and may overwrite memory. -/
theorem serve_emits {k : Nat} {e : Env} {s' : Client} {evs : List Event}
    (h : serve ans s k e = .ok (s', evs)) :
    ∀ ev ∈ evs, (∃ own, ev = .smashed own) ∨ ∃ turn j m, ev = .sent turn j m := by
  intro ev hmem
  have hsent : ∀ {r r' : Client} {turn j : Nat} {f : Connections → Connections × WireMsg}
      {evs' : List Event}, r.transmit turn j f e = .ok (r', evs') → ev ∈ evs' →
      ∃ turn j m, ev = .sent turn j m := by
    intro r r' turn j f evs' hsend hev
    obtain ⟨-, rfl⟩ := transmit_ok hsend
    exact ⟨_, _, _, List.mem_singleton.mp hev⟩
  rcases serve_cases h with ⟨-, rfl⟩ | ⟨-, h⟩ | ⟨-, -, h⟩ | ⟨f, -, h⟩ | ⟨-, h⟩
  · cases hmem
  · obtain ⟨piece, s1, evs1, evs2, -, hsmash, hsend, rfl⟩ := uploadPiece_ok h
    rcases List.mem_append.mp hmem with hmem | hmem
    · rcases hsmash with ⟨-, rfl⟩ | hsmash
      · cases hmem
      · rw [(smash_ok hsmash).1] at hmem
        exact .inl ⟨_, List.mem_singleton.mp hmem⟩
    · exact .inr (hsent hsend hmem)
  · exact .inr (hsent h hmem)
  · exact .inr (hsent h hmem)
  · obtain ⟨i, p, -, -, hsend⟩ := requestPiece_ok h
    exact .inr (hsent hsend hmem)

theorem turn_introduces {r : Recv} {eRecv eSend : Env} {s' : Client} {evs : List Event} {k : Nat}
    {intro : List Byte} (h : turn sha1 ans s r eRecv eSend = .ok (s', evs))
    (hmem : .introduced k intro ∈ evs) :
    intro = ownHandshake ++ introPayload ans s.ownBitfield eRecv := by
  rw [turn] at h
  split at h
  · cases h
  split at h
  · cases h
    cases hmem
  split at h
  · cases h
  next s1 evs1 hreceive =>
  split at h
  · cases h
  next s2 evs2 hserve =>
  cases h
  rcases List.mem_append.mp hmem with hmem | hmem
  · exact receive_introduces hreceive hmem
  · rcases serve_emits hserve _ hmem with ⟨own, heq⟩ | ⟨turn, j, m, heq⟩ <;> cases heq

/-- In a run that overwrites nothing, the own bitfield is one byte and the
rest it started with. -/
theorem run_own (hrun : Run sha1 ans s₀ log s) (hcalm : ∀ own, .smashed own ∉ log) {b : Byte}
    {rest : List Byte} (hstart : s₀.ownBitfield = b :: rest) :
    ∃ b', s.ownBitfield = b' :: rest := by
  have hview : s₀.view.own = b :: rest := hstart
  obtain ⟨b', hb'⟩ := own_after ans hcalm hview
  refine ⟨b', ?_⟩
  rw [← hb', ← (run_traced hrun).2]
  rfl

/-- Every introduction of a run is made from an own bitfield of that shape. -/
theorem run_introduces (hrun : Run sha1 ans s₀ log s) (hcalm : ∀ own, .smashed own ∉ log) {b : Byte}
    {rest : List Byte} (hstart : s₀.ownBitfield = b :: rest) {k : Nat} {intro : List Byte}
    (hmem : .introduced k intro ∈ log) :
    ∃ b' e, intro = ownHandshake ++ introPayload ans (b' :: rest) e := by
  induction hrun with
  | start => cases hmem
  | round poll _ _ ih => exact ih hcalm hmem
  | @turn log s s' evs r eRecv eSend hbefore _ hturn ih =>
      have hcalm' : ∀ own, .smashed own ∉ log :=
        fun own hin => hcalm own (List.mem_append_left _ hin)
      rcases List.mem_append.mp hmem with hmem | hmem
      · exact ih hcalm' hmem
      · obtain ⟨b', hb'⟩ := run_own hbefore hcalm' hstart
        exact ⟨b', eRecv, hb' ▸ turn_introduces hturn hmem⟩

/-- A byte of the bitfield in the message, as far as the message goes. -/
theorem introPayload_byte {own : List Byte} {j : Nat} (e : Env) (hj : j < ans.numPieces / 8)
    (hown : ans.numPieces / 8 ≤ own.length) :
    (introPayload ans own e)[5 + j]? = own[j]? := by
  have hn : ans.numPieces / 8 < 2 ^ 31 := by
    have := ans.numPieces_lt
    omega
  have hmessage : constructBitfieldMessage own (BitVec.ofNat 32 (ans.numPieces / 8))
      = bitfieldHeader ans ++ own.take (ans.numPieces / 8) := by
    rw [constructBitfieldMessage, bitfieldHeader, toNat_ofNat hn]
    simp
  have hheader : (bitfieldHeader ans).length = 5 := rfl
  have hin : 5 + j < (bitfieldHeader ans ++ own.take (ans.numPieces / 8)).length := by
    rw [List.length_append, hheader, List.length_take]
    omega
  have hread : 5 + j < ans.bitfieldMsgLength := by
    have hle := numPieces_le_bitfieldLen ans
    rw [BtInfo.bitfieldMsgLength]
    omega
  rw [introPayload, hmessage, Mem.read, List.getElem?_map, List.getElem?_range hread,
    Option.map_some, Mem.of_lt hin, List.getD_eq_getElem?_getD, List.getElem?_append_right
    (by omega), hheader, Nat.add_sub_cancel_left, List.getElem?_take_of_lt hj,
    List.getElem?_eq_getElem (by omega), Option.getD_some]

/-- **The ninth piece is never the client's own.** In every run of a fresh
client that overwrites nothing, the own bitfield has no piece from the ninth
on, whatever was downloaded, and neither has any `BITFIELD` the client sends. -/
theorem ninth_piece_never_own (hstart : s₀.ownBitfield = setInitialBitfield ans.numPieces)
    (hrun : Run sha1 ans s₀ log s) (hcalm : ∀ own, .smashed own ∉ log) :
    (∀ p, 8 ≤ p → hasPiece s.ownBitfield p = false) ∧
    ∀ k intro, .introduced k intro ∈ log → ∀ j, 1 ≤ j → j < ans.numPieces / 8 →
      intro[fullHandshakeLength + 5 + j]? = some 0 := by
  obtain ⟨m, hm⟩ : ∃ m, setInitialBitfield ans.numPieces = 0 :: List.replicate m 0 := by
    have hpos := ans.numPieces_pos
    obtain ⟨m, hm⟩ : ∃ m, ans.numPieces / 8 + (if ans.numPieces % 8 ≠ 0 then 1 else 0) = m + 1 :=
      Nat.exists_eq_add_one.mpr (by split <;> omega)
    exact ⟨m, by rw [setInitialBitfield, hm, List.replicate_succ]⟩
  rw [hm] at hstart
  have hlen : ans.numPieces / 8 ≤ m + 1 := by
    have hbytes := (length_setInitialBitfield ans.numPieces).1
    rwa [hm, List.length_cons, List.length_replicate] at hbytes
  refine ⟨?_, ?_⟩
  · intro p hp
    obtain ⟨b, hb⟩ := run_own hrun hcalm hstart
    obtain ⟨j, hj⟩ : ∃ j, p / 8 = j + 1 := Nat.exists_eq_add_one.mpr (by omega)
    rw [hb, hasPiece, hj, List.getD_cons_succ, List.getD_eq_getElem?_getD, List.getElem?_replicate]
    split <;> simp
  · intro k intro hmem j hpos hj
    obtain ⟨b, e, rfl⟩ := run_introduces hrun hcalm hstart hmem
    obtain ⟨i, rfl⟩ : ∃ i, j = i + 1 := Nat.exists_eq_add_one.mpr hpos
    have hroom : ans.numPieces / 8 ≤ (b :: List.replicate m 0).length := by simpa using hlen
    have hbyte := introPayload_byte e hj hroom
    rw [List.getElem?_append_right (by rw [length_ownHandshake]; omega), length_ownHandshake,
      Nat.add_assoc, Nat.add_sub_cancel_left, hbyte, List.getElem?_cons_succ,
      List.getElem?_replicate, if_pos (by omega)]

/-- One piece of a file of twenty-one was stored. -/
theorem ninth_piece_never_own_stored :
    ∃ s, Run (fun _ => shaOfABCD) (alike shaOfABCD) (joined (alike shaOfABCD)) storedOnce s ∧
      ∀ p, 8 ≤ p → hasPiece s.ownBitfield p = false := by
  obtain ⟨s, hrun⟩ := storedOnce_run
  exact ⟨s, hrun, (ninth_piece_never_own rfl hrun (by simp [storedOnce])).1⟩

end DubstepDucks.Torrent
