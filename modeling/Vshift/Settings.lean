import Vshift.Path

/- The environment settings: `application/common/settings.py`.

   The type of a field is the range its validator lets through; a field whose
   default lies outside that range (`redis.database`) has the wider type, since
   pydantic does not validate defaults. -/
namespace Vshift

/-- `Literal["DEBUG", "INFO", "WARNING", "ERROR", "CRITICAL", "TRACE"]` -/
inductive LogLevel where
  | debug | info | warning | error | critical | trace
  deriving DecidableEq, Repr

def LogLevel.value : LogLevel → String
  | debug => "DEBUG"
  | info => "INFO"
  | warning => "WARNING"
  | error => "ERROR"
  | critical => "CRITICAL"
  | trace => "TRACE"

structure LoggingSettings where
  level : LogLevel := .info
  deriving DecidableEq

structure ApplicationSettings where
  workerThreads : PositiveInt := 1
  deriving DecidableEq

structure DirectorySettings where
  inputDir : String := "data/input"
  outputDir : String := "data/output"
  tempDir : String := "data/temp"
  profileDir : String := "data/profile"
  deriving DecidableEq

/-- The validated range of `database` is `1 ≤ database`; its default is 0. -/
structure RedisConnectionSettings where
  host : String := "localhost"
  port : PositiveInt := 6379
  password : {secret : String // secret ≠ ""}
  database : Nat := 0
  deriving DecidableEq

structure FfmpegSettings where
  ffmpegPath : String := "ffmpeg"
  ffprobePath : String := "ffprobe"
  threadCount : Option PositiveInt := some 2
  deriving DecidableEq

structure ConfigSettings where
  file : Path := .parse "config/vshift.yaml"
  deriving DecidableEq

/-- `Field(min_length=1)` -/
abbrev NonEmptyText := {text : String // text ≠ ""}

def defaultKeyPrefix : NonEmptyText := ⟨"vshift", by decide⟩

structure QueueSettings where
  keyPrefix : NonEmptyText := defaultKeyPrefix
  /-- `60 * 60 * 24` -/
  ttl : PositiveInt := 86400
  jobHeartbeatTtlSeconds : PositiveInt := 60
  workerTtlSeconds : PositiveInt := 30
  deriving DecidableEq

structure ApiSettings where
  host : String := "0.0.0.0"
  port : PositiveInt := 8000
  docsEnabled : Bool := true
  docsUrl : String := "/docs"
  redocUrl : String := "/redoc"
  openapiUrl : String := "/openapi.json"
  deriving DecidableEq

structure ServerRuntimeSettings where
  scanIntervalSeconds : PositiveInt := 30
  recoveryIntervalSeconds : PositiveInt := 60
  workerScaleIntervalSeconds : PositiveInt := 15
  deriving DecidableEq

structure K8sResourceSpec where
  cpu : Option String := none
  memory : Option String := none
  deriving DecidableEq

structure K8sContainerResources where
  requests : K8sResourceSpec := {}
  limits : K8sResourceSpec := {}
  deriving DecidableEq

def defaultWorkerResources : K8sContainerResources where
  requests := ⟨some "1500m", some "3Gi"⟩
  limits := ⟨some "3", some "5Gi"⟩

structure KubernetesSettings where
  enabled : Bool := false
  «namespace» : NonEmptyText := ⟨"default", by decide⟩
  inCluster : Bool := true
  workerImage : NonEmptyText := ⟨"ghcr.io/bueckerlars/vshift:latest", by decide⟩
  workerImagePullPolicy : String := "IfNotPresent"
  maxConcurrentPods : PositiveInt := 1
  workerResources : K8sContainerResources := defaultWorkerResources
  workerServiceAccount : NonEmptyText := ⟨"vshift-worker", by decide⟩
  jobTtlSecondsAfterFinished : PositiveInt := 3600
  inputVolumeClaim : Option String := none
  outputVolumeClaim : Option String := none
  tempVolumeClaim : Option String := none
  inputMountPath : String := "/data/input"
  outputMountPath : String := "/data/output"
  tempMountPath : String := "/data/temp"
  configMountPath : String := "/app/config"
  configMapName : Option String := some "vshift-config"
  deriving DecidableEq

structure WorkerRuntimeSettings where
  idleSleepSeconds : PositiveInt := 1
  claimDequeueTimeoutSeconds : PositiveInt := 5
  oneShot : Bool := false
  deriving DecidableEq

structure Settings where
  application : ApplicationSettings := {}
  logging : LoggingSettings := {}
  directories : DirectorySettings := {}
  config : ConfigSettings := {}
  ffmpeg : FfmpegSettings := {}
  redis : RedisConnectionSettings
  queue : QueueSettings := {}
  api : ApiSettings := {}
  server : ServerRuntimeSettings := {}
  worker : WorkerRuntimeSettings := {}
  kubernetes : KubernetesSettings := {}
  deriving DecidableEq

end Vshift
