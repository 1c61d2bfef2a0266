import Cadence.Main
import Cadence.Server
import Cadence.Proofs.Compile.Mirror
import Cadence.Proofs.Playback.ToTheEnd
import Cadence.Proofs.Score.NoteTrack
import Cadence.Proofs.Score.Reader
import Cadence.Proofs.Score.RoundTrip
import Cadence.Proofs.Playback.Outcome
import Cadence.Proofs.Playback.Seek
import Cadence.Proofs.Playback.Grammar
import Cadence.Proofs.Playback.Live
import Cadence.Proofs.Playback.Stop
import Cadence.Proofs.Export.Names
import Cadence.Proofs.Document.Reading
import Cadence.Proofs.Document.RoundTrip
import Cadence.Proofs.Agreement
import Cadence.Proofs.Score.Encodable
import Cadence.Proofs.Port.Turns
import Cadence.Proofs.Export.Source
import Cadence.Proofs.Tools
import Cadence.Proofs.Playback.Schedule
import Cadence.Proofs.Score.Deltas
import Cadence.Proofs.Score.Resolution
import Cadence.Proofs.Export.Starter
import Cadence.Proofs.Compile.Picks
import Cadence.Proofs.Document.OneChord
import Cadence.Proofs.Document.Canonical
import Cadence.Proofs.Score.Running
import Cadence.Proofs.Timeline.Search
import Cadence.Proofs.Voicing
import Cadence.Proofs.Notation
