import MarkupEditor.CommandLine.Arguments
import MarkupEditor.Server.Address
import MarkupEditor.Store.File

set_option autoImplicit false

namespace MarkupEditor

/-- The settings of a server. With `inMemory` the store is not used. -/
structure ServerConfig where
  address : SocketAddress
  store : String
  inMemory : Bool

namespace ServerConfig

def standardAddress : SocketAddress :=
  .quad [127, 0, 0, 1] 3030

def grammar : Grammar :=
  ⟨[⟨"addr", none, .value false fun value =>
      if (SocketAddress.read? value).isNone then some .invalidValue else none⟩,
    ⟨"store", none, .value false fun value => if value.isEmpty then some .missingValue else none⟩,
    ⟨"memory", none, .flag⟩, helpOption, versionOption], 0⟩

def read (arguments : List String) : Except UsageError ServerConfig := do
  let given ← grammar.read arguments
  let address := ((given.value? "addr").bind SocketAddress.read?).getD standardAddress
  return ⟨address, (given.value? "store").getD defaultStorePath, given.isGiven "memory"⟩

end ServerConfig

end MarkupEditor
