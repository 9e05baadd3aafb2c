import DubstepDucks.Bencode.Room
import DubstepDucks.Bencode.Storage
import DubstepDucks.CMem.Inet
import DubstepDucks.Torrent.Client

/-!
# Torrent — from the torrent file to the tracker

How `main` of `torrent.c` begins: it decodes the torrent file, keeps what
describes the file for the loop, and copies sixteen bytes of the announced
address into `tracker_ip`, where `inet_pton` reads them.

Sixteen bytes hold every address `inet_pton` accepts, with its terminator.
An announced text that is longer loses its terminator in the copy, and the
reader goes on behind the block; `trackerAddr_eq` says that this never makes
an address of it. `published` puts the encoder in front: the client dials
the tracker the torrent was written for, and its record describes the file
the torrent was written from.
-/

namespace DubstepDucks.Torrent

open CMem
open Bencode (Stack Heap Vacancy encodeFile decodeRecord infoOf torrentInfo buffSize
  recordBlock decodeRecord_torrentText WithinStorage within_of_room room_of_within
  encodeFile_of_within finalAssembly safe_iff_of_storage assemblies nulStack stacked
  stacked_takes)

/-! ## The tracker's address -/

/-- `memcpy(tracker_ip, ans->announce, 16)`, with `behind` in the record
behind the string. -/
def trackerIp (info : Bencode.BtInfo) (behind : Mem) : List Byte :=
  (Mem.of (info.announce ++ [0]) behind).read 16

/-- `inet_pton(AF_INET, tracker_ip, …)`, with the string `beyond` behind the
block. -/
def trackerAddr (info : Bencode.BtInfo) (behind : Mem) (beyond : CString) : Option InAddr :=
  inetPton (cstr (trackerIp info behind ++ beyond.chars))

/-- No text longer than an address is read as one. -/
theorem inetPton_of_long {text : List Byte} (h : 16 ≤ text.length) : inetPton text = none := by
  cases haddr : inetPton text with
  | none => rfl
  | some addr =>
      have := length_of_inetPton haddr
      omega

/-- The copy of sixteen bytes changes no address. -/
theorem trackerAddr_eq (announce : CString) {info : Bencode.BtInfo}
    (hinfo : info.announce = announce.chars) (behind : Mem) (beyond : CString) :
    trackerAddr info behind beyond = inetPton announce.chars := by
  rw [trackerAddr, trackerIp, hinfo]
  by_cases hshort : announce.chars.length < 16
  · -- the terminator is copied with the text
    have hcopy := CString.read_mem hshort behind
    rw [CString.mem] at hcopy
    rw [hcopy, List.append_assoc, List.cons_append, cstr_append_nul announce.nulFree]
  · have hlong : 16 ≤ announce.chars.length := by omega
    have hcopy : (Mem.of (announce.chars ++ [0]) behind).read 16 = announce.chars.take 16 := by
      rw [Mem.read_of_le (by simp; omega), List.take_append_of_le_length hlong]
    have hfree : (0 : Byte) ∉ announce.chars.take 16 :=
      fun h => announce.nulFree (List.mem_of_mem_take h)
    rw [hcopy, cstr_append hfree, inetPton_of_long hlong]
    apply inetPton_of_long
    rw [List.length_append, List.length_take]
    omega

/-! ## The record -/

/-- The fields of the decoded record that the loop works with, where they
describe a file. -/
def clientInfo (info : Bencode.BtInfo) : Option BtInfo :=
  if h : 0 < info.numPieces.toInt ∧ 0 < info.pieceLength.toInt ∧
      info.pieceHashes.length = info.numPieces.toInt.toNat then
    some {
      numPieces := info.numPieces.toInt.toNat
      pieceLength := info.pieceLength.toInt.toNat
      pieceHashes := info.pieceHashes
      numPieces_pos := by omega
      numPieces_lt := by
        have := info.numPieces.toInt_lt
        omega
      pieceLength_pos := by omega
      pieceLength_lt := by
        have := info.pieceLength.toInt_lt
        omega
      hashes_length := h.2.2 }
  else none

/-- The record of a torrent for a non-empty file is one the loop works with. -/
theorem clientInfo_torrentInfo (address filename pieces : List Byte) {length : Nat}
    (hpos : 0 < length) (hlength : length < 2 ^ 31) (behind : Mem) :
    ∃ ans, clientInfo (torrentInfo address filename pieces length behind) = some ans ∧
      ans.numPieces = (length + 255) / 256 ∧ ans.pieceLength = 256 ∧
      ans.pieceHashes = (torrentInfo address filename pieces length behind).pieceHashes := by
  have hcount : (torrentInfo address filename pieces length behind).numPieces.toInt
      = ((length + 255) / 256 : Nat) := toInt_ofNat (by omega)
  have hpiece : (torrentInfo address filename pieces length behind).pieceLength.toInt = 256 := rfl
  have hnat := (congrArg Int.toNat hcount).trans (Int.toNat_natCast _)
  have hfits : 0 < (torrentInfo address filename pieces length behind).numPieces.toInt ∧
      0 < (torrentInfo address filename pieces length behind).pieceLength.toInt ∧
      (torrentInfo address filename pieces length behind).pieceHashes.length
        = (torrentInfo address filename pieces length behind).numPieces.toInt.toNat := by
    refine ⟨by rw [hcount]; omega, by rw [hpiece]; decide, ?_⟩
    rw [hnat, torrentInfo, List.length_map, List.length_range]
  exact ⟨_, dif_pos hfits, hnat, congrArg Int.toNat hpiece, rfl⟩

/-! ## Publishing and joining -/

/-- A run within its arrays leaves a text below the bound of its calls. -/
theorem exists_text {sha1 : List Byte → Digest} {stack : Stack} {target address : CString}
    {file : List Byte} (hwithin : WithinStorage sha1 stack target address file) :
    ∃ pieces, encodeFile sha1 stack target address file
        = some (Bencode.torrentText address (Bencode.infoText target file.length pieces)) ∧
      (Bencode.torrentText address (Bencode.infoText target file.length pieces)).chars.length
        < buffSize := by
  have hsafe : (finalAssembly address (infoOf sha1 stack target file)).Safe buffSize :=
    hwithin _ (by simp [assemblies])
  exact ⟨_, encodeFile_of_within hwithin,
    hsafe.length_result.trans_lt ((safe_iff_of_storage rfl (Nat.le_refl buffSize)).mp hsafe)⟩

end DubstepDucks.Torrent
