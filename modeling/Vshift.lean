import Vshift.Program
import Vshift.Runs
import Vshift.Tally
import Vshift.Pool
import Vshift.Inlining
import Vshift.Sorting
import Vshift.Codec
import Vshift.Values
import Vshift.Path
import Vshift.Profile
import Vshift.Job
import Vshift.Config
import Vshift.Selection
import Vshift.Settings
import Vshift.Redis
import Vshift.Stores
import Vshift.UseCases
import Vshift.Alone
import Vshift.Persistence
import Vshift.Listing
import Vshift.Recovery
import Vshift.Lifecycle
import Vshift.Overwrite
import Vshift.Accounting
import Vshift.Scan
import Vshift.Scanner
import Vshift.Outputs
import Vshift.WorkerEnv
import Vshift.Processes
import Vshift.Saves
import Vshift.Copies
import Vshift.Survival
import Vshift.Deduplication
import Vshift.Records
import Vshift.Lifetimes
import Vshift.Custody
import Vshift.Crashes
import Vshift.Filing
import Vshift.Extensions
import Vshift.Ffmpeg
import Vshift.Probe
import Vshift.Transcoder
import Vshift.Publication
import Vshift.Rescan
import Vshift.CommandLine
import Vshift.VideoStream
import Vshift.Handbrake
import Vshift.Presets
import Vshift.Depth
import Vshift.Encoders
import Vshift.Registry
import Vshift.Kubernetes
import Vshift.Capacity
import Vshift.Reader
import Vshift.ConfigDocument
import Vshift.ConfigLoader
import Vshift.Keyspace
import Vshift.Keys
import Vshift.Slots
import Vshift.Loops
import Vshift.Worker
import Vshift.Drain
import Vshift.Background
import Vshift.Parallel
import Vshift.Queues
import Vshift.Encoding
import Vshift.Documents
import Vshift.Delivery
import Vshift.Fairness
import Vshift.Progress
import Vshift.Autoscaling
import Vshift.Hosting
