/-
  `Start`, from the configuration to the threads behind the barrier.

  `launch_iff`: `Start` gets as far as its threads exactly for the configurations whose acceptor
  node is a map with an `ip_version` and a 32-bit port, whose algorithm configures its selector,
  and whose number of threads can be waited for by the barrier. It then listens on IPv4,
  accepts, and has as many idle threads as were asked for, one at least.

  `launched_holds`: whatever these threads do then, the backends left to select are those of the
  configuration that have refused no attempt that the connector retries.

  Opening the socket, creating the threads and the logs are left to the system.
-/
import LoadBalancer.Acceptor
import LoadBalancer.Application.Listening
import LoadBalancer.Connector.Refusals

namespace LoadBalancer

open Transition

section

variable [Platform]

namespace Node

omit [Platform] in
theorem asString_eq_ok {node : Node} {text : String} :
    node.asString = .ok text ↔ node = .scalar text ∨ (node = .null ∧ text = "null") := by
  cases node with
  | null => simp [asString, eq_comm]
  | _ => simp [asString]

theorem asInteger_eq_ok {lo hi : Int} {node : Node} {n : Int} :
    node.asInteger lo hi = .ok n ↔
      ∃ text, node = .scalar text ∧ Platform.readInteger text = some n ∧ lo ≤ n ∧ n ≤ hi := by
  cases node with
  | scalar text =>
      cases hread : Platform.readInteger text with
      | none => simp [asInteger, hread]
      | some m =>
          simp only [asInteger, hread]
          constructor
          · intro h
            split at h
            · next hrange =>
              obtain rfl := Except.ok.inj h
              exact ⟨text, rfl, hread, hrange⟩
            · cases h
          · intro h
            obtain ⟨text', htext, hread', hrange⟩ := h
            obtain rfl := Node.scalar.inj htext
            obtain rfl := Option.some.inj (hread.symm.trans hread')
            exact if_pos hrange
  | _ => simp [asInteger]

/-- A conversion to an unsigned type. -/
theorem asNat_eq_ok {hi : Int} {node : Node} {n : Nat} :
    (do return (← node.asInteger 0 hi).toNat : Except Exception Nat) = .ok n ↔
      ∃ text, node = .scalar text ∧ Platform.readInteger text = some (n : Int) ∧ (n : Int) ≤ hi := by
  rw [Except.bind_eq_ok]
  simp only [asInteger_eq_ok, Except.pure_eq_ok]
  constructor
  · intro h
    obtain ⟨m, ⟨text, htext, hread, hlo, hhi⟩, rfl⟩ := h
    have hm : ((m.toNat : Nat) : Int) = m := Int.toNat_of_nonneg hlo
    rw [hm]
    exact ⟨text, htext, hread, hhi⟩
  · intro h
    obtain ⟨text, htext, hread, hhi⟩ := h
    exact ⟨n, ⟨text, htext, hread, by omega, hhi⟩, Int.toNat_natCast n⟩

theorem asUnsigned_eq_ok {node : Node} {n : Nat} :
    node.asUnsigned = .ok n ↔
      ∃ text, node = .scalar text ∧ Platform.readInteger text = some (n : Int) ∧ n < 2 ^ 32 := by
  have hbound : (n : Int) ≤ 2 ^ 32 - 1 ↔ n < 2 ^ 32 := by omega
  rw [← hbound]
  exact asNat_eq_ok

theorem asSize_eq_ok {node : Node} {n : Nat} :
    node.asSize = .ok n ↔
      ∃ text, node = .scalar text ∧ Platform.readInteger text = some (n : Int) ∧ n < 2 ^ 64 := by
  have hbound : (n : Int) ≤ 2 ^ 64 - 1 ↔ n < 2 ^ 64 := by omega
  rw [← hbound]
  exact asNat_eq_ok

end Node

/-- `ConfigureThreadPool`, on a machine with this `hardware_concurrency()`. -/
def configureThreadPool (hardwareConcurrency : Nat) (config : Node) : Except Exception Nat := do
  let threadsNum := if hardwareConcurrency = 0 then 1 else hardwareConcurrency
  let tpConfig ← config.get "thread_pool"
  if !tpConfig.isDefined then
    return threadsNum
  else if !tpConfig.isMap then
    throw (.runtimeError "thread_pool configuration must be a map")
  else
    let threadsNumber ← tpConfig.get "threads_number"
    let text ← threadsNumber.asString
    if text = "auto" then
      return threadsNum
    else if threadsNumber.isScalar then
      threadsNumber.asSize
    else
      return threadsNum

/-- What `Start` has made when its threads pass the barrier. -/
structure Launch where
  endpoint : ListenEndpoint
  server : Server

def launch (hardwareConcurrency : Nat) (config : Node) : Except Exception Launch := do
  let endpoint ← Acceptor.listenEndpoint config
  let selector ← Selector.detectSelector config
  let threadsNum ← configureThreadPool hardwareConcurrency config
  -- `boost::barrier` counts in an `unsigned`, and refuses to count to 0
  if threadsNum % 2 ^ 32 = 0 then
    throw (.runtimeError "barrier constructor: count cannot be zero.: Invalid argument")
  else
    return { endpoint := endpoint, server := .start selector threadsNum }

/-! ## What is accepted -/

/-- The number of threads that a `thread_pool` node asks for. -/
inductive ThreadsOf (hardwareConcurrency : Nat) : Node → Nat → Prop where
  | absent : ThreadsOf hardwareConcurrency .undefined (max hardwareConcurrency 1)
  | auto {entries : List (String × Node)}
      (text : entries.lookup "threads_number" = some (.scalar "auto")) :
      ThreadsOf hardwareConcurrency (.map entries) (max hardwareConcurrency 1)
  /-- a key without a value -/
  | null {entries : List (String × Node)} (text : entries.lookup "threads_number" = some .null) :
      ThreadsOf hardwareConcurrency (.map entries) (max hardwareConcurrency 1)
  | number {entries : List (String × Node)} {text : String} {n : Nat}
      (found : entries.lookup "threads_number" = some (.scalar text)) (explicit : text ≠ "auto")
      (read : Platform.readInteger text = some (n : Int)) (fits : n < 2 ^ 64) :
      ThreadsOf hardwareConcurrency (.map entries) n

omit [Platform] in
theorem default_threads (hardwareConcurrency : Nat) :
    (if hardwareConcurrency = 0 then 1 else hardwareConcurrency) = max hardwareConcurrency 1 := by
  split <;> omega

/-- The value of `threads_number` in a map. -/
theorem threadsNumber_eq_ok {hardwareConcurrency : Nat} {entries : List (String × Node)} {n : Nat} :
    (do
      let threadsNumber ← (Node.map entries).get "threads_number"
      let text ← threadsNumber.asString
      if text = "auto" then return max hardwareConcurrency 1
      else if threadsNumber.isScalar then threadsNumber.asSize
      else return max hardwareConcurrency 1) = .ok n ↔
      ThreadsOf hardwareConcurrency (.map entries) n := by
  have hget : (Node.map entries).get "threads_number" =
      .ok ((entries.lookup "threads_number").getD .undefined) := rfl
  rw [hget, Except.bind_eq_ok]
  simp only [Except.ok.injEq, exists_eq_left']
  constructor
  · intro h
    cases hfound : entries.lookup "threads_number" with
    | none =>
        rw [hfound] at h
        cases h
    | some node =>
        rw [hfound, Option.getD_some] at h
        cases node with
        | null =>
            cases h
            exact .null hfound
        | scalar text =>
            by_cases hauto : text = "auto"
            · subst hauto
              cases h
              exact .auto hfound
            · have hsize : (Node.scalar text).asSize = .ok n := by
                simpa [Node.asString, Node.isScalar, bind, Except.bind, hauto] using h
              obtain ⟨text', htext, hread, hfits⟩ := Node.asSize_eq_ok.mp hsize
              obtain rfl := Node.scalar.inj htext
              exact .number hfound hauto hread hfits
        | _ => cases h
  · intro h
    cases h with
    | auto hfound =>
        rw [hfound]
        rfl
    | null hfound =>
        rw [hfound]
        rfl
    | @number _ text _ hfound hauto hread hfits =>
        have hsize : (Node.scalar text).asSize = .ok n :=
          Node.asSize_eq_ok.mpr ⟨text, rfl, hread, hfits⟩
        rw [hfound]
        simpa [Node.asString, Node.isScalar, bind, Except.bind, hauto] using hsize

theorem configureThreadPool_eq_ok {hardwareConcurrency : Nat} {config : Node} {n : Nat} :
    configureThreadPool hardwareConcurrency config = .ok n ↔
      ∃ pool, config.get "thread_pool" = .ok pool ∧ ThreadsOf hardwareConcurrency pool n := by
  unfold configureThreadPool
  rw [Except.bind_eq_ok, default_threads]
  refine exists_congr fun pool => and_congr_right fun _ => ?_
  cases pool with
  | undefined =>
      constructor
      · intro h
        cases h
        exact .absent
      · intro h
        cases h
        rfl
  | map entries => exact threadsNumber_eq_ok
  | _ =>
      refine iff_of_false (fun h => ?_) (fun h => ?_)
      · cases h
      · cases h

/-- The selector that a `load_balancing` node asks for. -/
inductive Chooses (balancing : Node) : Selector → Prop where
  | plain {name : String} {type : SelectorType} {s : Selector}
      (algorithm : balancing.get "algorithm" = .ok (.scalar name))
      (known : Selector.selectorSwitch.lookup name = some type) (other : type ≠ .consistentHash)
      (configured : Selector.configure type 1 balancing = .ok s) : Chooses balancing s
  | ring {name text : String} {replicas : Nat} {s : Selector}
      (algorithm : balancing.get "algorithm" = .ok (.scalar name))
      (known : Selector.selectorSwitch.lookup name = some .consistentHash)
      (given : balancing.get "replicas" = .ok (.scalar text))
      (read : Platform.readInteger text = some (replicas : Int)) (positive : 0 < replicas)
      (fits : replicas < 2 ^ 64)
      (configured : Selector.configure .consistentHash replicas balancing = .ok s) :
      Chooses balancing s

theorem chooses_of_detectSelector {config : Node} {s : Selector}
    (h : Selector.detectSelector config = .ok s) :
    ∃ balancing, config.get "load_balancing" = .ok balancing ∧ Chooses balancing s := by
  unfold Selector.detectSelector at h
  obtain ⟨balancing, hbalancing, h⟩ := Except.bind_eq_ok.mp h
  refine ⟨balancing, hbalancing, ?_⟩
  split at h
  · cases h
  obtain ⟨algorithm, halgorithm, h⟩ := Except.bind_eq_ok.mp h
  split at h
  · cases h
  obtain ⟨name, hname, h⟩ := Except.bind_eq_ok.mp h
  rcases Node.asString_eq_ok.mp hname with hscalar | ⟨-, rfl⟩
  · rw [hscalar] at halgorithm
    cases hknown : Selector.selectorSwitch.lookup name with
    | none =>
        rw [hknown] at h
        cases h
    | some type =>
        rw [hknown] at h
        by_cases hring : type = .consistentHash
        · subst hring
          obtain ⟨given, hgiven, h⟩ := Except.bind_eq_ok.mp h
          obtain ⟨replicas, hreplicas, h⟩ := Except.bind_eq_ok.mp h
          obtain ⟨text, htext, hread, hfits⟩ := Node.asSize_eq_ok.mp hreplicas
          rw [htext] at hgiven
          by_cases hzero : replicas = 0
          · rw [if_pos hzero] at h
            cases h
          · rw [if_neg hzero] at h
            exact .ring halgorithm hknown hgiven hread (by omega) hfits h
        · refine .plain halgorithm hknown hring ?_
          cases type with
          | consistentHash => exact absurd rfl hring
          | _ => exact h
  -- `null` is read as a name that no selector has
  · cases h

theorem detectSelector_of_chooses {config balancing : Node} {s : Selector}
    (hbalancing : config.get "load_balancing" = .ok balancing) (h : Chooses balancing s) :
    Selector.detectSelector config = .ok s := by
  have hdefined : ∀ {name}, balancing.get "algorithm" = .ok (.scalar name) →
      balancing.isDefined = true := by
    intro name halgorithm
    cases balancing with
    | undefined => cases halgorithm
    | _ => rfl
  unfold Selector.detectSelector
  rw [hbalancing]
  cases h with
  | @plain name type _ halgorithm hknown hother hconfigured =>
      simp only [bind, Except.bind, hdefined halgorithm, halgorithm, Node.asString, hknown]
      cases type with
      | consistentHash => exact absurd rfl hother
      | _ => exact hconfigured
  | @ring name text replicas _ halgorithm hknown hgiven hread hpositive hfits hconfigured =>
      have hsize : (Node.scalar text).asSize = .ok replicas :=
        Node.asSize_eq_ok.mpr ⟨text, rfl, hread, hfits⟩
      have hzero : replicas ≠ 0 := by omega
      simp only [bind, Except.bind, hdefined halgorithm, halgorithm, Node.asString, hknown, hgiven,
        hsize, if_neg hzero]
      exact hconfigured

theorem detectSelector_eq_ok {config : Node} {s : Selector} :
    Selector.detectSelector config = .ok s ↔
      ∃ balancing, config.get "load_balancing" = .ok balancing ∧ Chooses balancing s := by
  constructor
  · exact chooses_of_detectSelector
  · rintro ⟨balancing, hbalancing, h⟩
    exact detectSelector_of_chooses hbalancing h

/-- An `acceptor` node with an `ip_version` and this `port`. -/
inductive ListensTo : Node → Nat → Prop where
  | map {entries : List (String × Node)} {text : String} {n : Nat}
      (version : ((entries.lookup "ip_version").getD .undefined).isDefined = true)
      (found : (entries.lookup "port").getD .undefined = .scalar text)
      (read : Platform.readInteger text = some (n : Int)) (fits : n < 2 ^ 32) :
      ListensTo (.map entries) n

theorem configFromYaml_eq_ok {config : Node} {c : Acceptor.Configuration} :
    Acceptor.configFromYaml config = .ok c ↔
      (∃ acceptor, config.get "acceptor" = .ok acceptor ∧ ListensTo acceptor c.port) ∧
        c.useIpV6 = false := by
  unfold Acceptor.configFromYaml
  constructor
  · intro h
    obtain ⟨acceptor, hacceptor, h⟩ := Except.bind_eq_ok.mp h
    cases acceptor with
    | map entries =>
        obtain ⟨useIpV6, hv6, h⟩ := Except.bind_eq_ok.mp h
        obtain ⟨port, hget, h⟩ := Except.bind_eq_ok.mp h
        obtain ⟨n, hn, h⟩ := Except.bind_eq_ok.mp h
        obtain ⟨⟨ipVersion, hversion, hdefined⟩, hfalse⟩ := Acceptor.readUseIpV6_eq_ok.mp hv6
        obtain ⟨text, hport, hread, hfits⟩ := Node.asUnsigned_eq_ok.mp hn
        rw [← Except.ok.inj hversion] at hdefined
        rw [← Except.pure_eq_ok.mp h]
        exact ⟨⟨_, hacceptor, .map hdefined ((Except.ok.inj hget).trans hport) hread hfits⟩, hfalse⟩
    | _ => cases h
  · intro h
    obtain ⟨⟨acceptor, hacceptor, hlistens⟩, hfalse⟩ := h
    obtain ⟨port, useIpV6⟩ := c
    obtain rfl : useIpV6 = false := hfalse
    cases hlistens with
    | @map entries text n hversion hfound hread hfits =>
        have hv6 : Acceptor.readUseIpV6 (.map entries) = .ok false :=
          Acceptor.readUseIpV6_eq_ok.mpr ⟨⟨_, rfl, hversion⟩, rfl⟩
        have hn : (Node.scalar text).asUnsigned = .ok port :=
          Node.asUnsigned_eq_ok.mpr ⟨text, rfl, hread, hfits⟩
        refine Except.bind_eq_ok.mpr ⟨_, hacceptor, Except.bind_eq_ok.mpr ⟨_, hv6, ?_⟩⟩
        exact Except.bind_eq_ok.mpr ⟨_, congrArg Except.ok hfound, Except.bind_eq_ok.mpr ⟨_, hn, rfl⟩⟩

/-- The configurations that `Start` gets through, with what it makes of them. -/
structure Launches (hardwareConcurrency : Nat) (config : Node) (l : Launch) : Prop where
  endpoint : ∃ acceptor port, config.get "acceptor" = .ok acceptor ∧ ListensTo acceptor port ∧
    l.endpoint = ⟨.v4, Backend.narrowPort port⟩
  server : ∃ balancing pool s n, config.get "load_balancing" = .ok balancing ∧
    Chooses balancing s ∧ config.get "thread_pool" = .ok pool ∧
    ThreadsOf hardwareConcurrency pool n ∧ n % 2 ^ 32 ≠ 0 ∧ l.server = .start s n

theorem launches_of_launch {hardwareConcurrency : Nat} {config : Node} {l : Launch}
    (h : launch hardwareConcurrency config = .ok l) : Launches hardwareConcurrency config l := by
  obtain ⟨ep, hep, h⟩ := Except.bind_eq_ok.mp h
  obtain ⟨s, hs, h⟩ := Except.bind_eq_ok.mp h
  obtain ⟨n, hn, h⟩ := Except.bind_eq_ok.mp h
  obtain ⟨c, hc, hep⟩ := Except.bind_eq_ok.mp hep
  obtain ⟨⟨acceptor, hacceptor, hlistens⟩, hv4⟩ := configFromYaml_eq_ok.mp hc
  obtain ⟨balancing, hbalancing, hchooses⟩ := detectSelector_eq_ok.mp hs
  obtain ⟨pool, hpool, hthreads⟩ := configureThreadPool_eq_ok.mp hn
  have hep : (⟨.v4, Backend.narrowPort c.port⟩ : ListenEndpoint) = ep := by
    rw [← Except.pure_eq_ok.mp hep, hv4]
    rfl
  by_cases hzero : n % 2 ^ 32 = 0
  · rw [if_pos hzero] at h
    cases h
  · rw [if_neg hzero] at h
    obtain rfl := Except.pure_eq_ok.mp h
    exact ⟨⟨acceptor, c.port, hacceptor, hlistens, hep.symm⟩,
      balancing, pool, s, n, hbalancing, hchooses, hpool, hthreads, hzero, rfl⟩

theorem launch_of_launches {hardwareConcurrency : Nat} {config : Node} {l : Launch}
    (h : Launches hardwareConcurrency config l) : launch hardwareConcurrency config = .ok l := by
  obtain ⟨acceptor, port, hacceptor, hlistens, hendpoint⟩ := h.endpoint
  obtain ⟨balancing, pool, s, n, hbalancing, hchooses, hpool, hthreads, hzero, hserver⟩ := h.server
  have hc := (configFromYaml_eq_ok (c := ⟨port, false⟩)).mpr ⟨⟨acceptor, hacceptor, hlistens⟩, rfl⟩
  have hs := detectSelector_eq_ok.mpr ⟨balancing, hbalancing, hchooses⟩
  have hn := configureThreadPool_eq_ok.mpr ⟨pool, hpool, hthreads⟩
  have hl : l = ⟨⟨.v4, Backend.narrowPort port⟩, .start s n⟩ := by
    rw [← hendpoint, ← hserver]
  unfold launch Acceptor.listenEndpoint
  rw [hc, hs, hn, hl]
  exact if_neg hzero

/-- `Start` gets to its threads exactly for these configurations. -/
theorem launch_iff {hardwareConcurrency : Nat} {config : Node} {l : Launch} :
    launch hardwareConcurrency config = .ok l ↔ Launches hardwareConcurrency config l :=
  ⟨launches_of_launch, launch_of_launches⟩

/-! ## From the configuration to the backends that are left -/

namespace Server

/-- The backend whose refusal comes with the event, where the connector retries it. -/
def retriedRefusal (srv : Server) (event : ServerEvent) : Option Backend :=
  (srv.systemEvent event).bind srv.app.system.retriedRefusal

def retriedRefusals (srv : Server) (events : List ServerEvent) : List Backend :=
  observations step retriedRefusal srv events

theorem retriedRefusals_system {srv srv' : Server} {events : List ServerEvent}
    (hrun : Run (Steps step) srv events srv') :
    srv.app.system.retriedRefusals (observations step systemEvent srv events) =
      srv.retriedRefusals events := by
  have hobs : ∀ (srv : Server) event srv', srv.step event = some srv' →
      Run (Steps System.step) srv.app.system (srv.systemEvent event).toList srv'.app.system :=
    fun _ _ _ hstep => system_step hstep
  exact observations_observed (f := fun srv => srv.app.system) (g := System.retriedRefusal) hobs
    hrun

end Server

open BackendCHTraits (ringPositions)

/-- Two of the backends share a position under the configured number of replicas. -/
def Collides (balancing : Node) (bs : List Backend) : Prop :=
  ∃ text replicas, balancing.get "replicas" = .ok (.scalar text) ∧
    Platform.readInteger text = some ((replicas : Nat) : Int) ∧
    ¬ (bs.flatMap (ringPositions replicas)).Nodup

section

variable [LawfulPairingHeap] [LawfulSort] {balancing : Node} {bs : List Backend} {missed : String}

theorem Chooses.apart {s : Selector} (h : Chooses balancing s)
    (hbs : configuredBackends missed balancing = .ok bs) (hnames : (bs.map Backend.toString).Nodup)
    (hpos : s.type = .consistentHash → ¬ Collides balancing bs) :
    ∃ replicas, Selector.Apart replicas bs s ∧ ∀ b, s.Holds b ↔ b ∈ bs := by
  cases h with
  | plain _ _ hother hconfigured =>
      exact ⟨1, Selector.apart_configure (Nat.le_refl 1) (by decide) hconfigured hbs hnames
        fun hring => absurd hring hother⟩
  | @ring name text replicas _ halgorithm hknown hgiven hread hpositive hfits hconfigured =>
      refine ⟨replicas, Selector.apart_configure hpositive hfits hconfigured hbs hnames fun _ => ?_⟩
      obtain ⟨htype, -⟩ := Selector.configure_spec hconfigured
      by_contra hcollides
      exact hpos htype ⟨text, replicas, hgiven, hread, hcollides⟩

/-- Whatever the threads of a program that was started from a configuration do, the backends left
    to select are those of its endpoints that have refused no attempt that the connector retries,
    and a handler fails for want of a backend only when all of them have. -/
theorem launched_holds {hardwareConcurrency : Nat} {config : Node} {l : Launch}
    {events : List ServerEvent} {srv : Server} (hlaunch : launch hardwareConcurrency config = .ok l)
    (hbalancing : config.get "load_balancing" = .ok balancing)
    (hbs : configuredBackends missed balancing = .ok bs) (hnames : (bs.map Backend.toString).Nodup)
    (hpos : l.server.app.system.selector.type = .consistentHash → ¬ Collides balancing bs)
    (hrun : Run (Steps Server.step) l.server events srv) :
    (∀ b, srv.app.system.selector.Holds b ↔ b ∈ bs ∧ b ∉ l.server.retriedRefusals events) ∧
      ∀ client ∈ srv.app.system.clients, client.Halted →
        ∀ b ∈ bs, b ∈ l.server.retriedRefusals events := by
  obtain ⟨balancing', pool, s, n, hbalancing', hchooses, -, -, -, hserver⟩ :=
    (launches_of_launch hlaunch).server
  obtain rfl := Except.ok.inj (hbalancing.symm.trans hbalancing')
  rw [hserver] at hpos hrun ⊢
  obtain ⟨replicas, hapart, hholds⟩ := hchooses.apart hbs hnames hpos
  have hsystem := Server.run_system hrun
  rw [← Server.retriedRefusals_system hrun]
  refine ⟨System.holds_unrefused hapart hholds hsystem, fun client hmem hhalted b hb => ?_⟩
  exact System.refused_of_halted hapart hholds hsystem hmem hhalted hb

end

end

section

open Reference Selector

/-- Round robin over two endpoints, with two threads. -/
def twoThreads : Node :=
  .map [("acceptor", .map [("port", .scalar "9090"), ("ip_version", .scalar "4")]),
    ("load_balancing", .map [("algorithm", .scalar "round_robin"),
      ("endpoints", .sequence [ipEntry "127.0.0.1" "80", ipEntry "127.0.0.1" "81"])]),
    ("thread_pool", .map [("threads_number", .scalar "2")])]

def launchedTwo : Launch :=
  ⟨⟨.v4, Backend.narrowPort 9090⟩, .start (.roundRobin ⟨0, [port80, port81]⟩) 2⟩

/-- The second backend refuses the client. -/
def refusedBySecond : List ServerEvent :=
  [.app (.accepts 0 somebody), .app (.resumes 0), .app (.starts 1 0 (.connects .connectionRefused))]

def afterRefusedBySecond : Server :=
  (refusedBySecond.foldlM Server.step launchedTwo.server).getD launchedTwo.server

theorem launched_holds_refusedBySecond :
    launchedTwo.server.retriedRefusals refusedBySecond = [port81] ∧
      ∀ b, afterRefusedBySecond.app.system.selector.Holds b ↔
        b ∈ [port80, port81] ∧ b ∉ launchedTwo.server.retriedRefusals refusedBySecond := by
  have hlaunch : launch 8 twoThreads = .ok launchedTwo := by rfl
  have hbs : ∀ balancing, twoThreads.get "load_balancing" = .ok balancing →
      configuredBackends "" balancing = .ok [port80, port81] := by
    intro balancing h
    cases h
    rfl
  have hnames : ([port80, port81].map Backend.toString).Nodup := by decide
  have hrun : Run (Steps Server.step) launchedTwo.server refusedBySecond afterRefusedBySecond :=
    .of_foldlM (by rfl)
  obtain ⟨hleft, -⟩ := launched_holds hlaunch rfl (hbs _ rfl) hnames (fun h => by cases h) hrun
  exact ⟨by rfl, hleft⟩

end

end LoadBalancer
