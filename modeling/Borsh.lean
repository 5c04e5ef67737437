import Borsh.Bounds
import Borsh.Hosts
import Borsh.Lengths
import Borsh.Paths
import Borsh.Termination
import Borsh.Portability
import Borsh.Stack
import Borsh.Nesting
import Borsh.Session
import Borsh.Body
import Borsh.Tree
import Borsh.Instantiation
import Borsh.Compatibility
import Borsh.Rewriting
