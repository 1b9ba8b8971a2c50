import Diffz.Adapters.Capture
import Diffz.Adapters.Compare
import Diffz.Adapters.Entire
import Diffz.Adapters.Process
import Diffz.Core.Annotation
import Diffz.Core.Markdown
import Diffz.Core.Threads
import Diffz.Core.Timefmt
import Diffz.Lib.Base64
import Diffz.Lib.Calendar
import Diffz.Lib.Excerpt
import Diffz.Lib.JsonBytes
import Diffz.Lib.JsonText
import Diffz.Lib.Lossy
import Diffz.Lib.Moments
import Diffz.Lib.Sha256
import Diffz.Lib.Stops
import Diffz.Proof.Address.Detection
import Diffz.Proof.Address.Escapes
import Diffz.Proof.Annotation
import Diffz.Proof.Blame
import Diffz.Proof.Blocks
import Diffz.Proof.Bounded
import Diffz.Proof.Breaks
import Diffz.Proof.Capture.Github
import Diffz.Proof.Capture.Gitlab
import Diffz.Proof.Capture.Pages
import Diffz.Proof.Claims
import Diffz.Proof.Copy
import Diffz.Proof.Digest
import Diffz.Proof.Excerpt
import Diffz.Proof.FileTree.Shown
import Diffz.Proof.Gaps
import Diffz.Proof.Github
import Diffz.Proof.Gitlab
import Diffz.Proof.GitlabSummary
import Diffz.Proof.Handoff.Frames
import Diffz.Proof.Handoff.Launch
import Diffz.Proof.Handoff.Socket
import Diffz.Proof.HeightIndex
import Diffz.Proof.Http
import Diffz.Proof.Identities
import Diffz.Proof.Launch
import Diffz.Proof.Layout
import Diffz.Proof.LocalGit
import Diffz.Proof.Markdown.Loop
import Diffz.Proof.Markdown.Pieces
import Diffz.Proof.Markdown.Shown
import Diffz.Proof.Marker
import Diffz.Proof.MoveLabel
import Diffz.Proof.Outbox.Once
import Diffz.Proof.Outbox.Single
import Diffz.Proof.Outbox.Texts
import Diffz.Proof.Patch.Eligible
import Diffz.Proof.Patch.Overflow
import Diffz.Proof.Patch.Paths
import Diffz.Proof.Patch.Providers
import Diffz.Proof.Patch.Render
import Diffz.Proof.Patch.RoundTrip
import Diffz.Proof.Patch.Sections
import Diffz.Proof.Patch.Tokens
import Diffz.Proof.Prose
import Diffz.Proof.Releases
import Diffz.Proof.ReviewFlow.Discard
import Diffz.Proof.Scroll
import Diffz.Proof.Store.Blame
import Diffz.Proof.Store.Prune
import Diffz.Proof.Stored
import Diffz.Proof.Subsequence
import Diffz.Proof.Syntax
import Diffz.Proof.Threads.Discussions
import Diffz.Proof.Threads.Places
import Diffz.Proof.Threads.Views
import Diffz.Proof.Timefmt
import Diffz.Proof.Timeline.Members
import Diffz.Proof.Timeline.Steps
import Diffz.Proof.Viewport.Runs
import Diffz.Proof.Words
import Diffz.Proof.Workbench.Answers
import Diffz.Proof.Workbench.Attribution
import Diffz.Proof.Workbench.Marks
import Diffz.Proof.Workbench.Reads
import Diffz.Proof.Writers
import Diffz.Ui.Caret
import Diffz.Ui.Workbench
