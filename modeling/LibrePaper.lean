import LibrePaper.Track.Parity
import LibrePaper.Track.Ranks
import LibrePaper.Source.Overlaps
import LibrePaper.Log.Refusals
import LibrePaper.Log.Quota
import LibrePaper.Log.Join
import LibrePaper.Log.Trim
import LibrePaper.Resident.Slots
import LibrePaper.Resident.Retire
import LibrePaper.Anchors.Paste
import LibrePaper.Sync.Baseline
import LibrePaper.Client.Stranded
import LibrePaper.Storage.Lasting
import LibrePaper.Storage.RoundTrip
import LibrePaper.Anchors.Stored
import LibrePaper.Anchors.Tracked
import LibrePaper.Accounts.Final
import LibrePaper.Assistant.Truth
import LibrePaper.Sharing.Serial
import LibrePaper.Chat.View
import LibrePaper.History.Readable
import LibrePaper.Figures.Kept
import LibrePaper.Source.Replaced
import LibrePaper.Log.Legible
import LibrePaper.Offline.Kept
import LibrePaper.Writers.Fenced
import LibrePaper.Agents.Truthful
import LibrePaper.Creation.Whole
import LibrePaper.Track.Unsuggested
import LibrePaper.Track.Upgrades
import LibrePaper.Track.Rejecting
import LibrePaper.Log.Pools
import LibrePaper.Source.Patches
import LibrePaper.Comments.Walks
import LibrePaper.Renders.Answers
import LibrePaper.Zip.RoundTrip
import LibrePaper.Sync.Diff
import LibrePaper.Assistant.Trimmed
import LibrePaper.Sync.Recorded
import LibrePaper.Credentials.ReadBack
import LibrePaper.Listing.Walk
import LibrePaper.Source.Rebuilt
import LibrePaper.Agents.Positions
import LibrePaper.Client.Chunks
import LibrePaper.Storage.Queues
import LibrePaper.Track.Matched
