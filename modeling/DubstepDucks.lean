import DubstepDucks.Tracker.Exchange
import DubstepDucks.Tracker.Discovery
import DubstepDucks.Torrent.Startup
import DubstepDucks.Tracker.Shutdown
import DubstepDucks.Tracker.Memory
import DubstepDucks.Btp.FlagSteps
import DubstepDucks.Btp.Bitfields
import DubstepDucks.Torrent.Protocol
import DubstepDucks.Torrent.Pieces
import DubstepDucks.Torrent.Requests
import DubstepDucks.Torrent.Greeting
import DubstepDucks.Torrent.Grouping
import DubstepDucks.Torrent.Sockets
import DubstepDucks.Torrent.Writes
import DubstepDucks.Torrent.Dispatch
import DubstepDucks.Torrent.Stale
import DubstepDucks.Torrent.Sizes
import DubstepDucks.Torrent.Indices
import DubstepDucks.Torrent.StateMessages
import DubstepDucks.Torrent.PeerTables
import DubstepDucks.Torrent.Haves
import DubstepDucks.Torrent.KeepAlive
import DubstepDucks.Torrent.Seeding
import DubstepDucks.Torrent.Listening
import DubstepDucks.Torrent.Disk
import DubstepDucks.Torrent.Prompt
import DubstepDucks.Bencode.Verify
import DubstepDucks.Bencode.Extraction
import DubstepDucks.Bencode.Room
import DubstepDucks.Bencode.Storage
import DubstepDucks.Btp.WireFormat
import DubstepDucks.Torrent.Completion
import DubstepDucks.Tracker.Framing
import DubstepDucks.Bencode.Progress
import DubstepDucks.Bencode.Unclosed
import DubstepDucks.Bencode.Dump
