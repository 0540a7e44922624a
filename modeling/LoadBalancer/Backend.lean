/-
  `lb::tcp::Backend`: an IP endpoint or a URL, and how it is read from a configuration.

  Equality of `Backend` is the source's `operator==`: URLs by their whole text, endpoints by
  address and port, never across the two kinds. `toString` is the key under which the heap
  selectors and the hash ring know a backend; two different backends may share it.
-/
import LoadBalancer.Url

namespace LoadBalancer

variable [Platform]

/-- `boost::asio::ip::tcp::endpoint` -/
structure Endpoint where
  address : Platform.Address
  port : Fin 65536
deriving DecidableEq

inductive Backend where
  | endpoint (ep : Endpoint)
  | url (url : Url)
deriving DecidableEq

namespace Backend

def isUrl : Backend → Bool
  | .url _ => true
  | .endpoint _ => false

def isIpEndpoint : Backend → Bool
  | .endpoint _ => true
  | .url _ => false

/-- The conversion of an `int` to `unsigned short`. -/
def narrowPort (port : Int) : Fin 65536 := Fin.ofNat 65536 (port % 65536).toNat

omit [Platform] in
theorem narrowPort_eq_iff (port : Int) :
    ((narrowPort port).val : Int) = port ↔ 0 ≤ port ∧ port ≤ 65535 := by
  unfold narrowPort
  rw [Fin.val_ofNat]
  omega

/-- `Backend(const std::string& ip_address, int port)`; the port is narrowed to 16 bits. -/
def ofIp (ipAddress : String) (port : Int) : Except Exception Backend :=
  match Platform.addressFromString ipAddress with
  | some address => .ok (.endpoint ⟨address, narrowPort port⟩)
  | none => .error .invalidAddress

/-- `Backend(const std::string& url_string)` -/
def ofUrlString (urlString : String) : Except Exception Backend := do
  return .url (← Url.ofString urlString)

protected def toString : Backend → String
  | .url u => u.toString
  | .endpoint ep => Platform.addressToString ep.address ++ ":" ++ toString ep.port.val

/-- `operator==` -/
def equal : Backend → Backend → Bool
  | .url u, .url v => u.toString == v.toString
  | .endpoint e, .endpoint f => e == f
  | _, _ => false

theorem equal_iff (b c : Backend) : b.equal c = true ↔ b = c := by
  cases b with
  | endpoint e =>
      cases c with
      | endpoint f => simp [equal]
      | url v => simp [equal]
  | url u =>
      cases c with
      | endpoint f => simp [equal]
      | url v =>
          simp only [equal, beq_iff_eq, Backend.url.injEq]
          exact ⟨Url.ext, congrArg Url.toString⟩

/-- An `endpoints` entry given as `url`, or as `ip` and `port`. -/
def ofNode (ep : Node) : Except Exception Backend := do
  let url ← ep.get "url"
  if url.isDefined then
    ofUrlString (← url.asString)
  else
    let ip ← ep.required "ip"
    let port ← ep.required "port"
    ofIp (← ip.asString) (← port.asInt)

/-- `std::size_t ReadWeight(const YAML::Node& ep)` -/
def readWeight (ep : Node) : Except Exception Nat := do
  (← ep.required "weight").asSize

/-- The `endpoints` sequence of a balancing node; `missed` is the selector's own message. -/
def endpointNodes (missed : String) (config : Node) : Except Exception (List Node) := do
  match ← config.get "endpoints" with
  | .sequence items => return items
  | .undefined => throw (.runtimeError missed)
  | _ => throw (.runtimeError "endpoints node must be a sequence")

end Backend

end LoadBalancer
