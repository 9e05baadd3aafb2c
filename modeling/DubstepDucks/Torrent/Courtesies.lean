import DubstepDucks.Torrent.Disk
import DubstepDucks.Torrent.Listening

/-!
# Torrent — turns that move nothing

What a client sends in its setup loop is a handshake and a word on its
interest. This module is about receiving no more than that, cut by TCP
wherever it likes. The statements are about bytes and not about messages: no
byte is, as a message ID, more than a flag (`FlagByte`). A turn that receives
such bytes stores nothing, and on a slot that is not watched it answers
handshakes and does no more (`turn_flag`).
-/

namespace DubstepDucks.Torrent

open CMem Btp

variable {sha1 : List Byte → Digest} {ans : BtInfo} {s s' : Client} {k : Nat} {e : Env}
  {evs : List Event}

/-! ## Bytes that are no more than a flag -/

/-- As a message ID the byte changes a flag at most. -/
def FlagByte (b : Byte) : Prop := b.toNat < 4 ∨ 8 < b.toNat

instance (b : Byte) : Decidable (FlagByte b) := inferInstanceAs (Decidable (_ ∨ _))

/-- What a client does that moves nothing and asks for nothing. -/
def Idle : Event → Prop
  | .stored _ _ _ _ _ | .smashed _ => False
  | .sent _ _ m => Courtesy m
  | .heard _ _ _ | .greeted _ _ | .dropped _ | .introduced _ _ => True

theorem FlagByte.ofByte {b : Byte} (h : FlagByte b) {id : MsgID} (hid : MsgID.ofByte b = some id) :
    id = .choke ∨ id = .unchoke ∨ id = .interested ∨ id = .uninterested := by
  have hb : id.byte = b := by
    have hfound := List.find?_some hid
    simpa using hfound
  rw [← hb, FlagByte] at h
  cases id with
  | choke => exact .inl rfl
  | unchoke => exact .inr (.inl rfl)
  | interested => exact .inr (.inr (.inl rfl))
  | uninterested => exact .inr (.inr (.inr rfl))
  | _ => exact absurd h (by decide)

/-- The ASCII texts in a handshake lie above the message IDs. -/
theorem ownHandshake_flagByte : ∀ b ∈ ownHandshake, FlagByte b := by
  have hsha : fileSha.read 20 = ascii "AAAAAAAAAAAAAAAAAAA1" := Mem.read_of_length _ _
  have hid : ownId.read 20 = ascii "00000000000000000001" := Mem.read_of_length _ _
  rw [ownHandshake, constructHandshake, hsha, hid]
  simp [btProtocol, ascii, FlagByte]

theorem state_flagByte (id : MsgID) (h : FlagByte id.byte) :
    ∀ b ∈ (WireMsg.state id.byte).bytes, FlagByte b := by
  have hone : leBytes 1 = [1, 0, 0, 0] := rfl
  rw [WireMsg.bytes, constructStateMessage, hone]
  simpa [FlagByte] using h

/-- A message whose ID is no more than a flag is logged, and that is all. -/
theorem receiveMsg_flag {chunk : List Byte} (hid : FlagByte (s.buffer 4))
    (h : receiveMsg sha1 ans s k chunk e = .ok (s', evs)) :
    s'.buffer = s.buffer ∧ ∀ ev ∈ evs, Idle ev := by
  rw [receiveMsg] at h
  split at h
  · cases h
  next n hnext =>
  have hn : n.msgID = s.buffer 4 := by
    rw [getNextMsg] at hnext
    split at hnext
    · cases hnext
    · cases hnext
      rfl
  rw [← hn] at hid
  dsimp only at h
  cases hmsg : MsgID.ofByte n.msgID with
  | none =>
      rw [hmsg] at h
      cases h
      exact ⟨rfl, by simp [Idle]⟩
  | some id =>
      rw [hmsg] at h
      rcases hid.ofByte hmsg with rfl | rfl | rfl | rfl <;>
        · cases h
          exact ⟨rfl, by simp [Idle]⟩

/-- `recv` returned no more than flags. -/
def Recv.Flags (r : Recv) : Prop := ∀ c, r = .chunk c → ∀ b ∈ c.bytes, FlagByte b

/-- What is received and is no more than flags leads to nothing but
courtesies, in a buffer that held no more at the place of a message ID. -/
theorem receive_flag {r : Recv} (hflags : r.Flags) (hbuffer : FlagByte (s.buffer 4))
    (h : receive sha1 ans s k r e = .ok (s', evs)) :
    FlagByte (s'.buffer 4) ∧ ∀ ev ∈ evs, Idle ev := by
  have hzero : FlagByte (0 : Byte) := by decide
  cases r with
  | error =>
      cases h
      exact ⟨hbuffer, by simp⟩
  | closed =>
      cases h
      exact ⟨hbuffer, by simp [Idle]⟩
  | chunk c =>
      rw [receive] at h
      split at h
      · obtain ⟨s1, -, rfl, rfl⟩ := greet_ok h
        exact ⟨hzero, by simp [Idle]⟩
      · split at h
        · obtain ⟨s1, s2, evs2, bits, f, -, hf, hsend, rfl, rfl⟩ := greetWithBitfield_ok h
          obtain ⟨rfl, rfl⟩ := transmit_ok hsend
          refine ⟨hzero, ?_⟩
          rcases hf with rfl | rfl
          · simp [Idle, Courtesy, sendInterested]
          · simp [Idle, Courtesy, sendUninterested]
        · have hflag : FlagByte (s.buffer.write 0 c.bytes 4) := by
            by_cases hin : 4 < c.bytes.length
            · rw [Mem.write_zero, Mem.of_lt hin, List.getD_eq_getElem?_getD,
                List.getElem?_eq_getElem hin]
              exact hflags c rfl _ (List.getElem_mem hin)
            · rwa [Mem.write_out (by omega)]
          have hdone := fun hbyte => receiveMsg_flag hbyte h
          obtain ⟨hkept, hidle⟩ := hdone hflag
          rw [hkept]
          exact ⟨hflag, hidle⟩

theorem smash_buffer {e : Env} (h : s.smash e = .ok (s', evs)) : s'.buffer = s.buffer := by
  rw [Client.smash] at h
  split at h
  · cases h
  · cases h
    rfl

/-- Nothing is received into the buffer while a slot is served. -/
theorem serve_buffer {k : Nat} {e : Env} (h : serve ans s k e = .ok (s', evs)) :
    s'.buffer = s.buffer := by
  rcases serve_cases h with ⟨rfl, -⟩ | ⟨-, h⟩ | ⟨-, -, h⟩ | ⟨f, -, h⟩ | ⟨-, h⟩
  · rfl
  · obtain ⟨piece, s1, evs1, evs2, -, hsmash, hsend, -⟩ := uploadPiece_ok h
    have hkept : s1.buffer = s.buffer := by
      rcases hsmash with ⟨rfl, -⟩ | hsmash
      · rfl
      · exact smash_buffer hsmash
    obtain ⟨rfl, -⟩ := transmit_ok hsend
    exact hkept
  · obtain ⟨rfl, -⟩ := transmit_ok h
    rfl
  · obtain ⟨rfl, -⟩ := transmit_ok h
    rfl
  · obtain ⟨i, p, -, -, hsend⟩ := requestPiece_ok h
    obtain ⟨rfl, -⟩ := transmit_ok hsend
    rfl

/-- A turn that receives flags stores nothing, and on a slot that is not
watched it does no more than answer. -/
theorem turn_flag {r : Recv} {eRecv eSend : Env} (hflags : r.Flags)
    (hbuffer : FlagByte (s.buffer 4)) (h : turn sha1 ans s r eRecv eSend = .ok (s', evs)) :
    FlagByte (s'.buffer 4) ∧ (∀ ev ∈ evs, ¬ Stores ev) ∧
      (s.watch s.i = (false, false) → ∀ ev ∈ evs, Idle ev) := by
  rw [turn] at h
  split at h
  · cases h
  split at h
  · cases h
    exact ⟨hbuffer, by simp, by simp⟩
  split at h
  · cases h
  next s1 evs1 hreceive =>
  split at h
  · cases h
  next s2 evs2 hserve =>
  cases h
  obtain ⟨hkept, hidle⟩ := receive_flag hflags hbuffer hreceive
  refine ⟨?_, ?_, ?_⟩
  · show FlagByte (s2.buffer 4)
    rw [serve_buffer hserve]
    exact hkept
  · rintro ev hmem ⟨k, p, block, written, shift, rfl⟩
    rcases List.mem_append.mp hmem with hmem | hmem
    · exact hidle _ hmem
    · rcases serve_emits hserve _ hmem with ⟨own, heq⟩ | ⟨turn, j, m, heq⟩ <;> cases heq
  · intro hunwatched ev hmem
    rcases List.mem_append.mp hmem with hmem | hmem
    · exact hidle ev hmem
    · have hquiet := serve_unwatched (by rw [receive_watch hreceive]; exact hunwatched) hserve
      rw [hquiet.2] at hmem
      cases hmem

/-! ## What a client holds on to -/

/-- What a client has on disk and says it has. -/
def Client.store (s : Client) : Option (List Byte) × List Byte := (s.file, s.ownBitfield)

/-- The setup loop stores nothing. -/
theorem setupPeer_store {i : Nat} {d : Dial} (h : setupPeer ans s i d = .ok s') :
    s'.store = s.store := by
  have hcheck : ∀ {r r' : Client} {e : Env}, checkHandshake r e = .ok r' → r'.store = r.store := by
    intro r r' e hok
    exact Prod.ext (checkHandshake_keeps hok).1 (congrArg View.own (checkHandshake_ok hok).1)
  rw [setupPeer] at h
  split at h
  · cases h
  dsimp only at h
  split at h
  · cases h
  split at h
  · cases h
  · cases h
  split at h
  · obtain ⟨s1, hok, rfl⟩ := map_ok h
    have hkept := hcheck hok
    exact hkept
  split at h
  · split at h
    · cases h
    next s1 hok =>
    split at h
    · cases h
    · cases h
      have hkept := hcheck hok
      exact hkept
  · cases h
    rfl

theorem setupFrom_store {dials : List Dial} : ∀ {s : Client} {i : Nat},
    setupFrom ans s i dials = .ok s' → s'.store = s.store := by
  induction dials with
  | nil =>
      intro s i h
      cases h
      rfl
  | cons d dials ih =>
      intro s i h
      rw [setupFrom] at h
      split at h
      · cases h
      next s1 hpeer => exact (ih h).trans (setupPeer_store hpeer)

/-- A turn that stores nothing leaves the file alone. -/
theorem turn_file {r : Recv} {eRecv eSend : Env} (hstores : ∀ ev ∈ evs, ¬ Stores ev)
    (h : turn sha1 ans s r eRecv eSend = .ok (s', evs)) : s'.file = s.file := by
  have hfiled : Filed ans s s evs := Filed.silent hstores rfl
  exact (turn_filed h).2.trans hfiled.2.symm

/-- A turn of idle events stores nothing. -/
theorem turn_store {r : Recv} {eRecv eSend : Env} (hidle : ∀ ev ∈ evs, Idle ev)
    (h : turn sha1 ans s r eRecv eSend = .ok (s', evs)) : s'.store = s.store := by
  have hfile : (fileMachine ans).after s.file evs = s.file := by
    have hstores : ∀ ev ∈ evs, ¬ Stores ev := by
      rintro ev hmem ⟨k, p, block, written, shift, rfl⟩
      exact hidle _ hmem
    have hfiled : Filed ans s s evs := Filed.silent hstores rfl
    exact hfiled.2.symm
  have hown : ((machine ans).after s.view evs).own = s.ownBitfield := by
    clear h hfile
    generalize hv : s.view = v
    have hstart : v.own = s.ownBitfield := by rw [← hv]; rfl
    clear hv
    induction evs generalizing v with
    | nil => exact hstart
    | cons ev evs ih =>
        have hnext : (effect v ev).own = s.ownBitfield := by
          have hev := hidle ev List.mem_cons_self
          cases ev with
          | stored => exact hev.elim
          | smashed => exact hev.elim
          | _ => exact hstart
        exact ih (fun ev' hmem => hidle ev' (List.mem_cons_of_mem _ hmem)) _ hnext
  refine Prod.ext ?_ ?_
  · exact (turn_filed h).2.trans hfile
  · exact (congrArg View.own (turn_traced h).2).trans hown

end DubstepDucks.Torrent
