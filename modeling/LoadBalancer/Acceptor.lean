/-
  The endpoint that the acceptor listens on.

  `ConfigFromYAML` reads `ip_version` in the branch for a configuration that has none, where
  the conversion throws. A configuration with the field is not checked and always listens on
  IPv4. The port is read as a 32-bit number and narrowed to 16 bits in `AcceptorEndpoint`.
  Opening and binding the socket is left to the system and is no part of the model.
-/
import LoadBalancer.Backend
import LoadBalancer.Reference
import LoadBalancer.Lib.Except

namespace LoadBalancer

/-- `boost::asio::ip::tcp` -/
inductive Protocol where
  | v4
  | v6
deriving DecidableEq

/-- An endpoint on the unspecified address of its protocol. -/
structure ListenEndpoint where
  protocol : Protocol
  port : Fin 65536
deriving DecidableEq

namespace Acceptor

structure Configuration where
  /-- an `unsigned` -/
  port : Nat
  useIpV6 : Bool
deriving DecidableEq

def acceptorEndpoint (port : Nat) (useIpV6 : Bool) : ListenEndpoint :=
  if useIpV6 then ⟨.v6, Backend.narrowPort port⟩ else ⟨.v4, Backend.narrowPort port⟩

section

variable [Platform]

/-- What `ConfigFromYAML` does with `ip_version`. -/
def readUseIpV6 (acceptorNode : Node) : Except Exception Bool := do
  let ipVersion ← acceptorNode.get "ip_version"
  if !ipVersion.isDefined then
    let version ← ipVersion.asInt
    -- the disjunction holds of every version
    if version ≠ 4 ∨ version ≠ 6 then
      throw (.runtimeError ("Invalid ip_version " ++ toString version))
    else
      return decide (version = 6)
  else
    return false

def configFromYaml (config : Node) : Except Exception Configuration := do
  let acceptorNode ← config.get "acceptor"
  if !acceptorNode.isDefined then
    throw (.runtimeError "missed acceptor node!")
  else if !acceptorNode.isMap then
    throw (.runtimeError "acceptor node must be a map")
  else
    let useIpV6 ← readUseIpV6 acceptorNode
    let port ← (← acceptorNode.get "port").asUnsigned
    return { port := port, useIpV6 := useIpV6 }

/-- `ConfigFromYAML`, then the endpoint of the `Acceptor` constructor. -/
def listenEndpoint (config : Node) : Except Exception ListenEndpoint := do
  let configuration ← configFromYaml config
  return acceptorEndpoint configuration.port configuration.useIpV6

/-! ## What a configuration gives -/

/-- An integer, or an absent node. -/
inductive HoldsInteger : Node → Option Int → Prop where
  | absent : HoldsInteger .undefined none
  | integer {text : String} {n : Int} (read : Platform.readInteger text = some n) :
      HoldsInteger (.scalar text) (some n)

/-- The configuration has an acceptor map with these values of `port` and `ip_version`. -/
structure Gives (config : Node) (port version : Option Int) : Prop where
  acceptor : ∃ entries, config.get "acceptor" = .ok (.map entries) ∧
    HoldsInteger ((entries.lookup "port").getD .undefined) port ∧
    HoldsInteger ((entries.lookup "ip_version").getD .undefined) version

theorem isDefined_of_holdsInteger {node : Node} {value : Option Int}
    (h : HoldsInteger node value) : node.isDefined = value.isSome := by
  cases h <;> rfl

theorem asUnsigned_of_holdsInteger {node : Node} {value : Option Int}
    (h : HoldsInteger node value) {n : Nat} :
    node.asUnsigned = .ok n ↔ value = some (n : Int) ∧ n < 2 ^ 32 := by
  unfold Node.asUnsigned
  rw [Except.bind_eq_ok]
  cases h with
  | absent => simp [Node.asInteger]
  | @integer text m read =>
      simp only [Node.asInteger, read, Except.pure_eq_ok, Option.some.injEq]
      constructor
      · intro hm
        obtain ⟨k, hk, rfl⟩ := hm
        split at hk
        · next hrange =>
          obtain rfl := Except.ok.inj hk
          omega
        · cases hk
      · intro hm
        exact ⟨m, if_pos (by omega), by omega⟩

/-- Only a node without `ip_version` is tested, and its test fails. -/
theorem readUseIpV6_eq_ok {acceptorNode : Node} {useIpV6 : Bool} :
    readUseIpV6 acceptorNode = .ok useIpV6 ↔
      (∃ ipVersion, acceptorNode.get "ip_version" = .ok ipVersion ∧ ipVersion.isDefined = true) ∧
        useIpV6 = false := by
  unfold readUseIpV6
  rw [Except.bind_eq_ok]
  constructor
  · intro h
    obtain ⟨ipVersion, hget, h⟩ := h
    cases ipVersion with
    | undefined => cases h
    | _ => exact ⟨⟨_, hget, rfl⟩, (Except.ok.inj h).symm⟩
  · intro h
    obtain ⟨⟨ipVersion, hget, hdefined⟩, rfl⟩ := h
    exact ⟨ipVersion, hget, by rw [hdefined]; rfl⟩

/-- No configuration at all makes the acceptor listen on IPv6. -/
theorem protocol_of_listenEndpoint {config : Node} {ep : ListenEndpoint}
    (h : listenEndpoint config = .ok ep) : ep.protocol = .v4 := by
  obtain ⟨c, hc, hep⟩ := Except.bind_eq_ok.mp h
  obtain rfl := Except.pure_eq_ok.mp hep
  unfold configFromYaml at hc
  obtain ⟨acceptorNode, -, hc⟩ := Except.bind_eq_ok.mp hc
  split at hc
  · cases hc
  · split at hc
    · cases hc
    · obtain ⟨useIpV6, hread, hc⟩ := Except.bind_eq_ok.mp hc
      obtain ⟨portNode, -, hc⟩ := Except.bind_eq_ok.mp hc
      obtain ⟨port, -, hc⟩ := Except.bind_eq_ok.mp hc
      obtain ⟨-, rfl⟩ := readUseIpV6_eq_ok.mp hread
      obtain rfl := Except.pure_eq_ok.mp hc
      rfl

/-- A configuration without `ip_version` is refused, and one that has it listens on IPv4. -/
theorem configFromYaml_of_gives {config : Node} {port version : Option Int}
    (h : Gives config port version) {c : Configuration} :
    configFromYaml config = .ok c ↔
      version.isSome ∧ port = some (c.port : Int) ∧ c.port < 2 ^ 32 ∧ c.useIpV6 = false := by
  obtain ⟨entries, hentries, hport, hversion⟩ := h.acceptor
  have hdefined : (∃ ipVersion, (Node.map entries).get "ip_version" = .ok ipVersion ∧
      ipVersion.isDefined = true) ↔ version.isSome := by
    rw [← isDefined_of_holdsInteger hversion]
    simp [Node.get]
  have hread : configFromYaml config = (do
      let useIpV6 ← readUseIpV6 (.map entries)
      let port ← ((entries.lookup "port").getD .undefined).asUnsigned
      return { port := port, useIpV6 := useIpV6 }) := by
    unfold configFromYaml
    rw [hentries]
    rfl
  rw [hread]
  constructor
  · intro h
    obtain ⟨useIpV6, hv6, h⟩ := Except.bind_eq_ok.mp h
    obtain ⟨n, hn, h⟩ := Except.bind_eq_ok.mp h
    obtain rfl := Except.pure_eq_ok.mp h
    obtain ⟨hsome, hfalse⟩ := readUseIpV6_eq_ok.mp hv6
    obtain ⟨hvalue, hlt⟩ := (asUnsigned_of_holdsInteger hport).mp hn
    exact ⟨hdefined.mp hsome, hvalue, hlt, hfalse⟩
  · intro h
    obtain ⟨hsome, hvalue, hlt, hfalse⟩ := h
    have hv6 := readUseIpV6_eq_ok.mpr ⟨hdefined.mpr hsome, hfalse⟩
    have hn := (asUnsigned_of_holdsInteger hport).mpr ⟨hvalue, hlt⟩
    exact Except.bind_eq_ok.mpr ⟨c.useIpV6, hv6, Except.bind_eq_ok.mpr ⟨c.port, hn, rfl⟩⟩

theorem listenEndpoint_of_gives {config : Node} {port version : Option Int}
    (h : Gives config port version) {ep : ListenEndpoint} :
    listenEndpoint config = .ok ep ↔
      version.isSome ∧ ∃ n, port = some n ∧ 0 ≤ n ∧ n < 2 ^ 32 ∧
        ep = ⟨.v4, Backend.narrowPort n⟩ := by
  unfold listenEndpoint
  rw [Except.bind_eq_ok]
  constructor
  · intro h'
    obtain ⟨c, hc, hep⟩ := h'
    obtain ⟨hsome, hport, hlt, hv4⟩ := (configFromYaml_of_gives h).mp hc
    have hep := Except.pure_eq_ok.mp hep
    rw [hv4] at hep
    exact ⟨hsome, c.port, hport, by omega, by omega, hep.symm⟩
  · intro h'
    obtain ⟨hsome, n, hport, hnonneg, hlt, rfl⟩ := h'
    have hn : ((n.toNat : Nat) : Int) = n := Int.toNat_of_nonneg hnonneg
    have hfits : n.toNat < 2 ^ 32 := by omega
    have hc := (configFromYaml_of_gives h (c := ⟨n.toNat, false⟩)).mpr
      ⟨hsome, by rw [hport, hn], hfits, rfl⟩
    refine ⟨_, hc, Except.pure_eq_ok.mpr ?_⟩
    show (⟨.v4, Backend.narrowPort (n.toNat : Nat)⟩ : ListenEndpoint) = _
    rw [hn]

end

/-! ## The configured endpoint -/

/-- Values that name no endpoint to listen on. -/
def Invalid (port version : Option Int) : Prop :=
  (∃ v, version = some v ∧ v ≠ 4 ∧ v ≠ 6) ∨ ∀ n, port = some n → n < 0 ∨ 65535 < n

/-- The acceptor gets the endpoint that the configuration names, or an exception where it names
    none. -/
structure ListensAsConfigured (port version : Option Int)
    (outcome : Except Exception ListenEndpoint) : Prop where
  throws : (∃ e, outcome = .error e) ↔ Invalid port version
  port : ∀ ep, outcome = .ok ep → port = some (ep.port.val : Int)
  v6 : ∀ ep, outcome = .ok ep → (ep.protocol = .v6 ↔ version = some 6)
  v4 : ∀ ep, outcome = .ok ep → (ep.protocol = .v4 ↔ version = some 4 ∨ version = none)

/-- Without `ip_version` a 16-bit port is refused; with it, the field is taken for 4 and a port
    of up to 32 bits for a port. -/
def ReadRightly : Option Int → Option Int → Prop
  | none, _ => True
  | some n, version =>
    n < 0 ∨ 2 ^ 32 ≤ n ∨ (65535 < n ∧ version = none) ∨ (n ≤ 65535 ∧ version = some 4)

theorem listensAsConfigured_error {port version : Option Int} {e : Exception} :
    ListensAsConfigured port version (.error e) ↔ Invalid port version := by
  constructor
  · intro h
    exact h.throws.mp ⟨e, rfl⟩
  · intro h
    exact ⟨iff_of_true ⟨e, rfl⟩ h, by simp, by simp, by simp⟩

theorem listensAsConfigured_v4 {n v : Int} :
    ListensAsConfigured (some n) (some v) (.ok ⟨.v4, Backend.narrowPort n⟩) ↔
      (0 ≤ n ∧ n ≤ 65535) ∧ v = 4 := by
  constructor
  · intro h
    have hport := (Backend.narrowPort_eq_iff n).mp (Option.some.inj (h.port _ rfl)).symm
    have hv4 := (h.v4 _ rfl).mp rfl
    exact ⟨hport, by simpa using hv4⟩
  · intro h
    obtain ⟨hport, rfl⟩ := h
    have hnarrow := (Backend.narrowPort_eq_iff n).mpr hport
    refine ⟨iff_of_false (fun h => nomatch h) ?_, ?_, ?_, ?_⟩
    · intro hinvalid
      rcases hinvalid with ⟨v, hv, hne, -⟩ | hout
      · exact hne (Option.some.inj hv).symm
      · have := hout n rfl
        omega
    · intro ep hep
      obtain rfl := Except.ok.inj hep
      rw [hnarrow]
    · intro ep hep
      obtain rfl := Except.ok.inj hep
      simp
    · intro ep hep
      obtain rfl := Except.ok.inj hep
      simp

/-- Where the acceptor throws, it is right to. -/
theorem invalid_iff {port version : Option Int}
    (h : ¬ (version.isSome ∧ ∃ n, port = some n ∧ 0 ≤ n ∧ n < 2 ^ 32)) :
    Invalid port version ↔ ReadRightly port version := by
  cases port with
  | none => simp [Invalid, ReadRightly]
  | some n =>
      cases version with
      | none =>
          have hinvalid : Invalid (some n) none ↔ n < 0 ∨ 65535 < n := by simp [Invalid]
          have hright : ReadRightly (some n) none ↔ n < 0 ∨ 2 ^ 32 ≤ n ∨ 65535 < n := by
            simp [ReadRightly]
          rw [hinvalid, hright]
          omega
      | some v =>
          have hout : n < 0 ∨ 2 ^ 32 ≤ n := by
            by_contra hin
            exact h ⟨rfl, n, rfl, by omega, by omega⟩
          refine iff_of_true (Or.inr fun m hm => ?_) ?_
          · obtain rfl := Option.some.inj hm
            omega
          · unfold ReadRightly
            omega

/-- The acceptor listens as configured exactly where the configuration is read rightly. -/
theorem listensAsConfigured_iff [Platform] {config : Node} {port version : Option Int}
    (h : Gives config port version) :
    ListensAsConfigured port version (listenEndpoint config) ↔ ReadRightly port version := by
  by_cases hyields : version.isSome ∧ ∃ n, port = some n ∧ 0 ≤ n ∧ n < 2 ^ 32
  · obtain ⟨hsome, n, rfl, hnonneg, hlt⟩ := hyields
    rw [(listenEndpoint_of_gives h).mpr ⟨hsome, n, rfl, hnonneg, hlt, rfl⟩]
    obtain ⟨v, rfl⟩ := Option.isSome_iff_exists.mp hsome
    rw [listensAsConfigured_v4]
    have hright : ReadRightly (some n) (some v) ↔
        n < 0 ∨ 2 ^ 32 ≤ n ∨ (n ≤ 65535 ∧ v = 4) := by simp [ReadRightly]
    rw [hright]
    omega
  · cases houtcome : listenEndpoint config with
    | error e => rw [listensAsConfigured_error, invalid_iff hyields]
    | ok ep =>
        obtain ⟨hsome, n, hport, hnonneg, hlt, -⟩ := (listenEndpoint_of_gives h).mp houtcome
        exact absurd ⟨hsome, n, hport, hnonneg, hlt⟩ hyields

section

open Reference

/-- The acceptor node of a configuration. -/
def listening (port ipVersion : String) : Node :=
  .map [("acceptor", .map [("port", .scalar port), ("ip_version", .scalar ipVersion)])]

/-- The configuration of the repository. -/
theorem listensAsConfigured_shipped :
    ListensAsConfigured (some 9090) (some 4) (listenEndpoint (listening "9090" "4")) := by
  have h : Gives (listening "9090" "4") (some 9090) (some 4) :=
    ⟨_, rfl, .integer (by decide), .integer (by decide)⟩
  exact (listensAsConfigured_iff h).mpr (Or.inr (Or.inr (Or.inr ⟨by decide, rfl⟩)))

/-- The other version that the configuration's comment offers listens on IPv4, and without a
    version the acceptor is refused. -/
theorem not_listensAsConfigured_v6 :
    (Gives (listening "9090" "6") (some 9090) (some 6) ∧
      listenEndpoint (listening "9090" "6") = .ok ⟨.v4, 9090⟩ ∧
      ¬ ListensAsConfigured (some 9090) (some 6) (listenEndpoint (listening "9090" "6"))) ∧
    ∃ config, Gives config (some 9090) none ∧ listenEndpoint config = .error .invalidNode ∧
      ¬ ListensAsConfigured (some 9090) none (listenEndpoint config) := by
  refine ⟨⟨⟨_, rfl, .integer (by decide), .integer (by decide)⟩, by rfl, ?_⟩,
    .map [("acceptor", .map [("port", .scalar "9090")])],
    ⟨_, rfl, .integer (by decide), .absent⟩, by rfl, ?_⟩
  · intro h
    exact absurd (listensAsConfigured_v4.mp h).2 (by decide)
  · intro h
    rcases listensAsConfigured_error.mp h with ⟨v, hv, -⟩ | hout
    · cases hv
    · exact absurd (hout 9090 rfl) (by decide)

end

end Acceptor

end LoadBalancer
