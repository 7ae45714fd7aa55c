import Vshift.Keyspace
import Vshift.Redis

/- The key space: `infrastructure/redis/keys.py`, and the calls of the stores on it.

   A key is `{prefix}:`, then its family up to the next colon, then what tells it apart within
   the family (`name_eq`). Families are told apart by their texts, and within one the canonical
   UUIDs, all 36 characters long, by their digits and what may follow them. So the names of
   different keys differ (`name_injective`): on a server of named values no call meets a value
   of another type (`run_calls`), and the calls on some of the keys do what they would do
   without all others (`run_own`). -/
namespace Vshift

/-- `RedisKeys`, whose `prefix` is the key prefix of the settings. -/
structure RedisKeys where
  keyPrefix : String

namespace RedisKeys
variable (keys : RedisKeys)

def pendingQueue : String := keys.keyPrefix ++ ":queue:pending"

def deadLetterQueue : String := keys.keyPrefix ++ ":dlq"

def job (jobId : Uuid) : String := keys.keyPrefix ++ ":job:" ++ jobId.str

def jobSummary (jobId : Uuid) : String := keys.keyPrefix ++ ":job:" ++ jobId.str ++ ":summary"

def jobHeartbeat (jobId : Uuid) : String :=
  keys.keyPrefix ++ ":job:" ++ jobId.str ++ ":heartbeat"

def jobStateIndex (state : String) : String := keys.keyPrefix ++ ":jobs:state:" ++ state

def worker (workerId : Uuid) : String := keys.keyPrefix ++ ":workers:" ++ workerId.str

def workersIndex : String := keys.keyPrefix ++ ":workers:index"

def processedFile (canonicalPath : String) : String :=
  keys.keyPrefix ++ ":processed:" ++ canonicalPath

end RedisKeys

/-- A key of the stores: its kind and its argument. -/
inductive RedisKey where
  | pendingQueue
  | deadLetterQueue
  | job (jobId : Uuid)
  | jobSummary (jobId : Uuid)
  | jobHeartbeat (jobId : Uuid)
  | jobStateIndex (state : JobState)
  | worker (workerId : Uuid)
  | workersIndex
  | processedFile (canonicalPath : String)
  deriving DecidableEq

/-- The text of a key. -/
def RedisKeys.name (keys : RedisKeys) : RedisKey → String
  | .pendingQueue => keys.pendingQueue
  | .deadLetterQueue => keys.deadLetterQueue
  | .job jobId => keys.job jobId
  | .jobSummary jobId => keys.jobSummary jobId
  | .jobHeartbeat jobId => keys.jobHeartbeat jobId
  | .jobStateIndex state => keys.jobStateIndex state.value
  | .worker workerId => keys.worker workerId
  | .workersIndex => keys.workersIndex
  | .processedFile canonicalPath => keys.processedFile canonicalPath

example : (RedisKeys.mk "vshift").name (.jobHeartbeat 10) =
    "vshift:job:00000000-0000-0000-0000-00000000000a:heartbeat" := by decide

/-! Canonical UUIDs. -/

theorem hexDigit_inj : ∀ a < 16, ∀ b < 16, hexDigit a = hexDigit b → a = b := by decide

theorem hexDigit_ne_hyphen : ∀ a < 16, hexDigit a ≠ '-' := by decide

/-- Numbers with the same digits. -/
theorem mod_eq_of_digits {n m : Nat} : ∀ {k : Nat}, (∀ i < k, n / 16 ^ i % 16 = m / 16 ^ i % 16) →
    n % 16 ^ k = m % 16 ^ k
  | 0, _ => by rw [pow_zero, Nat.mod_one, Nat.mod_one]
  | k + 1, h => by
    rw [Nat.mod_pow_succ, Nat.mod_pow_succ, h k (Nat.lt_succ_self k),
      mod_eq_of_digits fun i hi => h i (Nat.lt_succ_of_lt hi)]

namespace Uuid

theorem length_hex (id : Uuid) : id.hex.length = 32 := by
  rw [hex, List.length_map, List.length_range]

theorem hyphen_notMem_hex (id : Uuid) : '-' ∉ id.hex := by
  intro h
  obtain ⟨i, -, hi⟩ := List.mem_map.mp h
  exact hexDigit_ne_hyphen _ (Nat.mod_lt _ (by decide)) hi

theorem hex_injective : Function.Injective hex := by
  intro a b h
  have hdigits : ∀ i < 32, a.toNat / 16 ^ i % 16 = b.toNat / 16 ^ i % 16 := by
    intro i hi
    have hdigit := List.map_inj_left.mp h (31 - i) (List.mem_range.mpr (by omega))
    have hrev : 31 - (31 - i) = i := by omega
    rw [hrev] at hdigit
    exact hexDigit_inj _ (Nat.mod_lt _ (by decide)) _ (Nat.mod_lt _ (by decide)) hdigit
  have hmod := mod_eq_of_digits hdigits
  have hrange : 16 ^ 32 = 2 ^ 128 := by decide
  rw [hrange, Nat.mod_eq_of_lt a.isLt, Nat.mod_eq_of_lt b.isLt] at hmod
  exact BitVec.eq_of_toNat_eq hmod

/-- The digits are what is left without the hyphens. -/
theorem filter_str (id : Uuid) : id.str.toList.filter (· ≠ '-') = id.hex := by
  have hkeep : ∀ {l : List Char}, (∀ c ∈ l, c ∈ id.hex) → l.filter (· ≠ '-') = l := by
    intro l hl
    apply List.filter_eq_self.mpr
    intro c hc
    rw [decide_eq_true_eq]
    exact fun heq => hyphen_notMem_hex id (heq ▸ hl c hc)
  have htake : ∀ n m, ((id.hex.drop n).take m).filter (· ≠ '-') = (id.hex.drop n).take m :=
    fun _ _ => hkeep fun _ hc => List.mem_of_mem_drop (List.mem_of_mem_take hc)
  have hfirst : (id.hex.take 8).filter (· ≠ '-') = id.hex.take 8 :=
    hkeep fun _ hc => List.mem_of_mem_take hc
  have hlast : (id.hex.drop 20).filter (· ≠ '-') = id.hex.drop 20 :=
    hkeep fun _ hc => List.mem_of_mem_drop hc
  have hhyphen : ∀ l : List Char, ('-' :: l).filter (· ≠ '-') = l.filter (· ≠ '-') :=
    fun _ => List.filter_cons_of_neg (by decide)
  rw [str, String.toList_ofList]
  simp only [List.filter_append, hhyphen, htake, hfirst, hlast]
  calc id.hex.take 8 ++ (id.hex.drop 8).take 4 ++ (id.hex.drop 12).take 4 ++
        (id.hex.drop 16).take 4 ++ id.hex.drop 20
      = id.hex.take 20 ++ id.hex.drop 20 := by
        rw [← List.take_add, ← List.take_add, ← List.take_add]
    _ = id.hex := List.take_append_drop 20 id.hex

theorem str_injective : Function.Injective str := by
  intro a b h
  apply hex_injective
  rw [← filter_str, ← filter_str, h]

theorem length_str (id : Uuid) : id.str.toList.length = 36 := by
  simp [str, length_hex]

end Uuid

/-! Names in their parts. -/

/-- The texts that follow the prefix. -/
inductive Family where
  | queue | dlq | job | jobs | workers | processed
  deriving DecidableEq

namespace Family

def text : Family → String
  | queue => "queue"
  | dlq => "dlq"
  | job => "job"
  | jobs => "jobs"
  | workers => "workers"
  | processed => "processed"

theorem text_injective : Function.Injective text := by
  intro f f' h
  cases f <;> cases f' <;> first | rfl | exact absurd h (by decide)

theorem colon_notMem_text (f : Family) : ':' ∉ f.text.toList := by
  cases f <;> decide

end Family

/-- What follows a family in the key of a UUID. -/
def uuidPart (id : Uuid) (suffix : List Char) : List Char := ':' :: (id.str.toList ++ suffix)

theorem uuidPart_inj {id id' : Uuid} {suffix suffix' : List Char} :
    uuidPart id suffix = uuidPart id' suffix' ↔ id = id' ∧ suffix = suffix' := by
  constructor
  · intro h
    have hlength : id.str.toList.length = id'.str.toList.length :=
      id.length_str.trans id'.length_str.symm
    obtain ⟨hid, hsuffix⟩ := List.append_inj (List.cons.inj h).2 hlength
    exact ⟨Uuid.str_injective (String.toList_inj.mp hid), hsuffix⟩
  · rintro ⟨rfl, rfl⟩
    rfl

theorem length_uuidPart (id : Uuid) (suffix : List Char) :
    (uuidPart id suffix).length = 37 + suffix.length := by
  rw [uuidPart, List.length_cons, List.length_append, Uuid.length_str]
  omega

namespace RedisKey

/-- The text up to the next colon. -/
def family : RedisKey → Family
  | pendingQueue => .queue
  | deadLetterQueue => .dlq
  | job _ => .job
  | jobSummary _ => .job
  | jobHeartbeat _ => .job
  | jobStateIndex _ => .jobs
  | worker _ => .workers
  | workersIndex => .workers
  | processedFile _ => .processed

/-- What follows the family. -/
def rest : RedisKey → List Char
  | pendingQueue => ':' :: "pending".toList
  | deadLetterQueue => []
  | job jobId => uuidPart jobId []
  | jobSummary jobId => uuidPart jobId ":summary".toList
  | jobHeartbeat jobId => uuidPart jobId ":heartbeat".toList
  | jobStateIndex state => ':' :: ("state:".toList ++ state.value.toList)
  | worker workerId => uuidPart workerId []
  | workersIndex => ':' :: "index".toList
  | processedFile canonicalPath => ':' :: canonicalPath.toList

theorem rest_head (key : RedisKey) : ∀ c ∈ key.rest.head?, c = ':' := by
  have hcons : ∀ l : List Char, ∀ c ∈ (':' :: l).head?, c = ':' :=
    fun _ _ hc => (Option.some.inj hc).symm
  cases key with
  | deadLetterQueue => exact fun c hc => by cases hc
  | _ => exact hcons _

theorem worker_ne_index (id : Uuid) : (worker id).rest ≠ workersIndex.rest := by
  intro h
  have hlength := congrArg List.length h
  -- 37 characters after the family against 6
  rw [rest, rest, length_uuidPart] at hlength
  exact absurd hlength (by decide)

/-- Keys of one family are told apart by the rest of their names. -/
theorem eq_of_rest {key key' : RedisKey} (hfamily : key.family = key'.family)
    (hrest : key.rest = key'.rest) : key = key' := by
  cases key with
  | pendingQueue => cases key' with
    | pendingQueue => rfl
    | _ => cases hfamily
  | deadLetterQueue => cases key' with
    | deadLetterQueue => rfl
    | _ => cases hfamily
  | job id => cases key' with
    | job id' => rw [(uuidPart_inj.mp hrest).1]
    | jobSummary id' => exact absurd (uuidPart_inj.mp hrest).2 (by decide)
    | jobHeartbeat id' => exact absurd (uuidPart_inj.mp hrest).2 (by decide)
    | _ => cases hfamily
  | jobSummary id => cases key' with
    | job id' => exact absurd (uuidPart_inj.mp hrest).2 (by decide)
    | jobSummary id' => rw [(uuidPart_inj.mp hrest).1]
    | jobHeartbeat id' => exact absurd (uuidPart_inj.mp hrest).2 (by decide)
    | _ => cases hfamily
  | jobHeartbeat id => cases key' with
    | job id' => exact absurd (uuidPart_inj.mp hrest).2 (by decide)
    | jobSummary id' => exact absurd (uuidPart_inj.mp hrest).2 (by decide)
    | jobHeartbeat id' => rw [(uuidPart_inj.mp hrest).1]
    | _ => cases hfamily
  | jobStateIndex state => cases key' with
    | jobStateIndex state' =>
      have hvalue := String.toList_inj.mp (List.append_cancel_left (List.cons.inj hrest).2)
      cases state <;> cases state' <;> first | rfl | exact absurd hvalue (by decide)
    | _ => cases hfamily
  | worker id => cases key' with
    | worker id' => rw [(uuidPart_inj.mp hrest).1]
    | workersIndex => exact absurd hrest (worker_ne_index id)
    | _ => cases hfamily
  | workersIndex => cases key' with
    | worker id' => exact absurd hrest.symm (worker_ne_index id')
    | workersIndex => rfl
    | _ => cases hfamily
  | processedFile path => cases key' with
    | processedFile path' => rw [String.toList_inj.mp (List.cons.inj hrest).2]
    | _ => cases hfamily

end RedisKey

/-- Two texts that are cut at their first separator. -/
theorem append_inj_of_sep {sep : Char} : ∀ {l l' r r' : List Char}, l ++ r = l' ++ r' → sep ∉ l →
    sep ∉ l' → (∀ c ∈ r.head?, c = sep) → (∀ c ∈ r'.head?, c = sep) → l = l' ∧ r = r'
  | [], [], _, _, h, _, _, _, _ => ⟨rfl, h⟩
  | [], c :: l', r, r', h, _, hl', hr, _ => by
    have hhead : r.head? = some c := by rw [List.nil_append] at h; rw [h]; rfl
    exact absurd (hr c hhead ▸ List.mem_cons_self) hl'
  | c :: l, [], r, r', h, hl, _, _, hr' => by
    have hhead : r'.head? = some c := by rw [List.nil_append] at h; rw [← h]; rfl
    exact absurd (hr' c hhead ▸ List.mem_cons_self) hl
  | c :: l, c' :: l', r, r', h, hl, hl', hr, hr' => by
    obtain ⟨rfl, htail⟩ := List.cons.inj h
    obtain ⟨rfl, rfl⟩ := append_inj_of_sep htail (fun hc => hl (List.mem_cons_of_mem _ hc))
      (fun hc => hl' (List.mem_cons_of_mem _ hc)) hr hr'
    exact ⟨rfl, rfl⟩

namespace RedisKeys
variable (keys : RedisKeys)

theorem name_eq (key : RedisKey) : (keys.name key).toList =
    keys.keyPrefix.toList ++ ':' :: (key.family.text.toList ++ key.rest) := by
  cases key <;> simp [name, pendingQueue, deadLetterQueue, job, jobSummary, jobHeartbeat,
    jobStateIndex, worker, workersIndex, processedFile, RedisKey.family, RedisKey.rest,
    Family.text, uuidPart]

theorem name_injective : Function.Injective keys.name := by
  intro key key' h
  have hnames := congrArg String.toList h
  rw [keys.name_eq, keys.name_eq, List.append_cancel_left_eq, List.cons.injEq] at hnames
  obtain ⟨hfamily, hrest⟩ := append_inj_of_sep hnames.2 key.family.colon_notMem_text
    key'.family.colon_notMem_text key.rest_head key'.rest_head
  exact RedisKey.eq_of_rest (Family.text_injective (String.toList_inj.mp hfamily)) hrest

end RedisKeys

/-! The calls of the stores. -/

/-- `RedisStores`: the four stores over one client. -/
inductive Store where
  | jobRepository | taskQueue | processedFileStore | workerRegistry
  deriving DecidableEq

/-- What a value holds: the text of a record, or of a UUID. -/
inductive Payload where
  | job (job : TranscodeJob)
  | summary (summary : JobSummary)
  | worker (worker : WorkerInfo)
  | id (id : Uuid)
  deriving DecidableEq

/-- One command of a store. -/
inductive StoreCall where
  | getJob (id : Uuid)
  | setJob (job : TranscodeJob)
  | sremState (state : JobState) (id : Uuid)
  | saddState (state : JobState) (id : Uuid)
  | smembersState (state : JobState)
  | getSummary (id : Uuid)
  | setSummary (summary : JobSummary)
  | lpushPending (id : Uuid)
  /-- `RPOP` or `BRPOP`, in `dequeue` -/
  | rpopPending
  /-- `RPUSH`, in `requeue` -/
  | rpushPending (id : Uuid)
  /-- `LLEN`, in `depth` -/
  | llenPending
  | lpushDeadLetter (id : Uuid)
  | llenDeadLetter
  | existsProcessed (path : String)
  | setProcessed (path : String) (id : Uuid)
  | getWorker (id : Uuid)
  | setWorker (worker : WorkerInfo)
  | delWorker (id : Uuid)
  | saddWorkers (id : Uuid)
  | sremWorkers (id : Uuid)
  | smembersWorkers
  | setHeartbeat (id worker : Uuid)
  | existsHeartbeat (id : Uuid)
  /-- The server removes a key of the store that was set with `EX`. -/
  | lapse (key : VolatileKey)

def VolatileKey.key : VolatileKey → RedisKey
  | job id => .job id
  | jobSummary id => .jobSummary id
  | jobHeartbeat id => .jobHeartbeat id
  | worker id => .worker id

namespace RedisKey

/-- The type of the values under a key. -/
def kind : RedisKey → Keyspace.Kind
  | pendingQueue => .list
  | deadLetterQueue => .list
  | jobStateIndex _ => .set
  | workersIndex => .set
  | job _ => .string
  | jobSummary _ => .string
  | jobHeartbeat _ => .string
  | worker _ => .string
  | processedFile _ => .string

/-- The store a key belongs to. -/
def store : RedisKey → Store
  | job _ => .jobRepository
  | jobSummary _ => .jobRepository
  | jobStateIndex _ => .jobRepository
  | pendingQueue => .taskQueue
  | deadLetterQueue => .taskQueue
  | processedFile _ => .processedFileStore
  | worker _ => .workerRegistry
  | workersIndex => .workerRegistry
  | jobHeartbeat _ => .workerRegistry

end RedisKey

namespace StoreCall

/-- The store that issues a call. -/
def store : StoreCall → Store
  | getJob _ => .jobRepository
  | setJob _ => .jobRepository
  | sremState _ _ => .jobRepository
  | saddState _ _ => .jobRepository
  | smembersState _ => .jobRepository
  | getSummary _ => .jobRepository
  | setSummary _ => .jobRepository
  | lpushPending _ => .taskQueue
  | rpopPending => .taskQueue
  | rpushPending _ => .taskQueue
  | llenPending => .taskQueue
  | lpushDeadLetter _ => .taskQueue
  | llenDeadLetter => .taskQueue
  | existsProcessed _ => .processedFileStore
  | setProcessed _ _ => .processedFileStore
  | getWorker _ => .workerRegistry
  | setWorker _ => .workerRegistry
  | delWorker _ => .workerRegistry
  | saddWorkers _ => .workerRegistry
  | sremWorkers _ => .workerRegistry
  | smembersWorkers => .workerRegistry
  | setHeartbeat _ _ => .workerRegistry
  | existsHeartbeat _ => .workerRegistry
  | lapse key => key.key.store

/-- The key a call is about, and the command for it. -/
def access : StoreCall → RedisKey × Keyspace.Op Payload
  | getJob id => (.job id, .get)
  | setJob job => (.job job.id, .set (.job job))
  | sremState state id => (.jobStateIndex state, .srem (.id id))
  | saddState state id => (.jobStateIndex state, .sadd (.id id))
  | smembersState state => (.jobStateIndex state, .smembers)
  | getSummary id => (.jobSummary id, .get)
  | setSummary summary => (.jobSummary summary.jobId, .set (.summary summary))
  | lpushPending id => (.pendingQueue, .lpush (.id id))
  | rpopPending => (.pendingQueue, .rpop)
  | rpushPending id => (.pendingQueue, .rpush (.id id))
  | llenPending => (.pendingQueue, .llen)
  | lpushDeadLetter id => (.deadLetterQueue, .lpush (.id id))
  | llenDeadLetter => (.deadLetterQueue, .llen)
  | existsProcessed path => (.processedFile path, .has)
  | setProcessed path id => (.processedFile path, .set (.id id))
  | getWorker id => (.worker id, .get)
  | setWorker worker => (.worker worker.workerId, .set (.worker worker))
  | delWorker id => (.worker id, .del)
  | saddWorkers id => (.workersIndex, .sadd (.id id))
  | sremWorkers id => (.workersIndex, .srem (.id id))
  | smembersWorkers => (.workersIndex, .smembers)
  | setHeartbeat id worker => (.jobHeartbeat id, .set (.id worker))
  | existsHeartbeat id => (.jobHeartbeat id, .has)
  | lapse key => (key.key, .del)

theorem access_store (call : StoreCall) : call.access.1.store = call.store := by
  cases call <;> rfl

/-- Every call is for the type of its key. -/
theorem access_suits (call : StoreCall) : call.access.2.Suits call.access.1.kind := by
  cases call <;> trivial

end StoreCall

namespace RedisKeys
variable (keys : RedisKeys)

/-- A call as the server gets it. -/
def access (call : StoreCall) : String × Keyspace.Op Payload :=
  Prod.map keys.name id call.access

theorem map_access (calls : List StoreCall) :
    calls.map keys.access = (calls.map StoreCall.access).map (Prod.map keys.name id) := by
  rw [List.map_map]
  rfl

variable {keys} {server : Keyspace.Server String Payload}

/-- No call of a store meets a value of another type. -/
theorem run_calls (hserver : Keyspace.Typed RedisKey.kind (server ∘ keys.name))
    (calls : List StoreCall) : ∃ replies server',
      Keyspace.run server (calls.map keys.access) = some (replies, server') ∧
      Keyspace.run (server ∘ keys.name) (calls.map StoreCall.access) =
        some (replies, server' ∘ keys.name) := by
  have hsuits : ∀ access ∈ calls.map StoreCall.access, access.2.Suits access.1.kind := by
    intro access haccess
    obtain ⟨call, -, rfl⟩ := List.mem_map.mp haccess
    exact call.access_suits
  obtain ⟨replies, slots, hslots, -⟩ := Keyspace.run_typed hserver hsuits
  obtain ⟨server', hrun, rfl⟩ := Keyspace.run_named keys.name_injective hslots
  rw [← keys.map_access] at hrun
  exact ⟨replies, server', hrun, hslots⟩

/-- The calls on some of the keys do, among all others, what they do alone. -/
theorem run_own {calls : List StoreCall} {replies : List (Keyspace.Reply Payload)}
    {server' : Keyspace.Server String Payload} (own : RedisKey → Bool)
    (hrun : Keyspace.run (server ∘ keys.name) (calls.map StoreCall.access) =
      some (replies, server' ∘ keys.name)) : ∃ alone,
      Keyspace.run server ((calls.filter fun call => own call.access.1).map keys.access) =
        some (Keyspace.repliesTo (fun call => own call.access.1) calls replies, alone) ∧
      ∀ key, own key = true → server' (keys.name key) = alone (keys.name key) := by
  have hself : Keyspace.Agree own (server ∘ keys.name) (server ∘ keys.name) := fun _ _ => rfl
  obtain ⟨slots, hslots, hagree⟩ := Keyspace.run_filter hself hrun
  obtain ⟨alone, halone, rfl⟩ := Keyspace.run_named keys.name_injective hslots
  rw [List.filter_map, ← keys.map_access, Keyspace.repliesTo_map] at halone
  exact ⟨alone, halone, hagree⟩

/-- What else is on the server stays. -/
theorem run_foreign {text : String} (htext : ∀ key, keys.name key ≠ text)
    {calls : List StoreCall} {replies : List (Keyspace.Reply Payload)}
    {server' : Keyspace.Server String Payload}
    (hrun : Keyspace.run server (calls.map keys.access) = some (replies, server')) :
    server' text = server text := by
  rw [keys.map_access] at hrun
  exact Keyspace.run_unnamed htext hrun

end RedisKeys

/-- The names of different keys differ; and on any server where what is under these names has
    the types of the stores, every call of theirs succeeds, and the calls of one store get the
    replies, and leave the values, that they would get and leave without the others. -/
theorem key_space_apart (keys : RedisKeys) : Function.Injective keys.name ∧
    ∀ (calls : List StoreCall) (server : Keyspace.Server String Payload),
      Keyspace.Typed RedisKey.kind (server ∘ keys.name) → ∃ replies server',
        Keyspace.run server (calls.map keys.access) = some (replies, server') ∧
        ∀ store, ∃ alone,
          Keyspace.run server ((calls.filter (·.store = store)).map keys.access) =
            some (Keyspace.repliesTo (·.store = store) calls replies, alone) ∧
          ∀ key, key.store = store → server' (keys.name key) = alone (keys.name key) := by
  refine ⟨keys.name_injective, fun calls server hserver => ?_⟩
  obtain ⟨replies, server', hrun, hslots⟩ := RedisKeys.run_calls hserver calls
  refine ⟨replies, server', hrun, fun store => ?_⟩
  obtain ⟨alone, halone, hagree⟩ := RedisKeys.run_own (fun key => key.store = store) hslots
  simp only [StoreCall.access_store] at halone
  exact ⟨alone, halone, fun key hkey => hagree key (decide_eq_true hkey)⟩

/-- Calls of two stores about one UUID. -/
def callsAboutOne : List StoreCall :=
  [.saddWorkers 1, .setHeartbeat 1 1, .saddState .pending 1, .getSummary 1, .lapse (.worker 1)]

/-- Among all calls about it, on an empty server. -/
theorem key_space_apart_empty : ∃ replies server',
    Keyspace.run (fun _ => none) (callsAboutOne.map (RedisKeys.mk "vshift").access) =
      some (replies, server') ∧
    ∀ store, ∃ alone,
      Keyspace.run (fun _ => none)
          ((callsAboutOne.filter (·.store = store)).map (RedisKeys.mk "vshift").access) =
        some (Keyspace.repliesTo (·.store = store) callsAboutOne replies, alone) ∧
      ∀ key, key.store = store →
        server' ((RedisKeys.mk "vshift").name key) = alone ((RedisKeys.mk "vshift").name key) :=
  (key_space_apart ⟨"vshift"⟩).2 callsAboutOne (fun _ => none) (fun _ _ h => by cases h)

end Vshift
